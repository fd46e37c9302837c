import Mathlib.Tactic
import Sproutfs.Spill.Storage

/-!
# How many versions a spill file keeps

`WriteVersion` makes room before it writes and adds its version after, without looking again. Where no
write overlaps another or a publication, the room it made is still there. Otherwise the index outgrows
its bound, and `Publish`, which makes room only at the bound itself, makes none from then on.
-/

namespace Sproutfs.Spill

open Option

variable {K : Type} {s s' : Storage K} {n : Nat}

/-- The storage keeps no more versions than before, of the same bound, and writes the same. -/
structure Shrinks (s s' : Storage K) : Prop where
  maxVersions : s'.maxVersions = s.maxVersions
  versions : s'.versions.length ≤ s.versions.length
  writes : s'.writes = s.writes

theorem Shrinks.of_eq (hm : s'.maxVersions = s.maxVersions) (hv : s'.versions = s.versions)
    (hw : s'.writes = s.writes) : Shrinks s s' :=
  ⟨hm, by rw [hv], hw⟩

/-- The bound holds, and a write in flight is alone and has its room. -/
structure Bounded (n : Nat) (s : Storage K) : Prop where
  maxVersions : s.maxVersions = n
  versions : s.versions.length ≤ n
  writing : ∀ w ∈ s.writes, s.writes = [w] ∧ s.versions.length < n

theorem Bounded.shrinks (h : Bounded n s) (hs : Shrinks s s') : Bounded n s' := by
  refine ⟨hs.maxVersions.trans h.maxVersions, hs.versions.trans h.versions, fun w hw => ?_⟩
  rw [hs.writes] at hw ⊢
  exact ⟨(h.writing w hw).1, hs.versions.trans_lt (h.writing w hw).2⟩

theorem Bounded.keep (hm : s.maxVersions = n) (hroom : s.versions.length < n) (hw : s.writes = []) (key : K)
    (id : Nat) : Bounded n (s.keep key id) := by
  refine ⟨hm, ?_, ?_⟩
  · simpa [Storage.keep] using hroom
  · simp [Storage.keep, hw]

variable [DecidableEq K]

theorem Storage.mem_of_current {v : Version K} (h : s.current v = true) :
    ∃ w ∈ s.versions, w.key = v.key := by
  obtain ⟨w, hw, -⟩ := (any_eq_true _ _).mp h
  exact ⟨w, List.mem_of_find?_eq_some hw, by simpa using List.find?_some hw⟩

theorem Storage.filter_lt {v : Version K} (h : s.current v = true) :
    (s.versions.filter (·.key ≠ v.key)).length < s.versions.length := by
  obtain ⟨w, hw, hk⟩ := mem_of_current h
  exact List.length_filter_lt_length_iff_exists.mpr ⟨w, hw, by simpa using hk⟩

/-- A version is dropped, unless there is none. -/
theorem Storage.drop_spec {id : Option Nat} (h : s.dropOldestLocked = some (id, s')) :
    Shrinks s s' ∧ (id ≠ none → s'.versions.length < s.versions.length) := by
  fun_induction dropOldestLocked s with
  | case1 s hnone =>
    cases h
    exact ⟨.of_eq rfl rfl rfl, fun hid => absurd rfl hid⟩
  | case2 s hsome hq => cases h
  | case3 s hsome entry rest hq hold ih => exact ⟨⟨(ih h).1.1, (ih h).1.2, (ih h).1.3⟩, (ih h).2⟩
  | case4 s hsome entry rest hq hcurrent hread ih => exact ⟨⟨(ih h).1.1, (ih h).1.2, (ih h).1.3⟩, (ih h).2⟩
  | case5 s hsome entry rest hq hcurrent hread =>
    cases h
    have hlt := filter_lt (by simpa using hcurrent)
    exact ⟨⟨rfl, hlt.le, rfl⟩, fun _ => hlt⟩

theorem Bounded.reserve (h : Bounded n s) (hs : s.reserve = some s') : Bounded n s' := by
  unfold Storage.reserve at hs
  split at hs
  · cases hs
    exact h.shrinks (.of_eq rfl rfl rfl)
  · split at hs
    · cases hs
      exact h.shrinks (.of_eq rfl rfl rfl)
    · obtain ⟨⟨id, t⟩, ht, rfl⟩ := map_eq_some_iff.mp hs
      obtain ⟨hshrinks, -⟩ := Storage.drop_spec ht
      exact h.shrinks { hshrinks with }

theorem Bounded.publish (h : Bounded n s) {ref : Nat} {key : K} (hw : s.writes = [])
    (hs : s.publish ref key = some s') : Bounded n s' := by
  unfold Storage.publish at hs
  split at hs
  · cases hs
    exact h.shrinks (.of_eq rfl rfl rfl)
  · split at hs
    · -- at the bound, the version dropped makes room
      obtain ⟨⟨id, t⟩, ht, hs⟩ := bind_eq_some_iff.mp hs
      obtain ⟨i, hi, rfl⟩ := map_eq_some_iff.mp hs
      obtain ⟨hshrinks, hlt⟩ := Storage.drop_spec ht
      have hroom := hlt (by rw [hi]; exact some_ne_none i)
      exact .keep (s := { t with free := i :: t.free }) (hshrinks.maxVersions.trans h.maxVersions)
        (hroom.trans_le h.versions) (hshrinks.writes.trans hw) key ref
    · next hne =>
      cases hs
      have := h.versions
      exact .keep h.maxVersions (lt_of_le_of_ne this (h.maxVersions ▸ hne)) hw key ref

theorem Bounded.writeBegins (h : Bounded n s) {key : K} (hw : s.writes = [])
    (hs : s.writeBegins key = some s') : Bounded n s' := by
  obtain ⟨hok, hs⟩ | ⟨hok, hs⟩ := ite_eq_iff.mp hs
  · cases hs
    exact h
  · obtain ⟨⟨id, t⟩, ht, rfl⟩ := map_eq_some_iff.mp hs
    have hroom : Shrinks s t ∧ (id ≠ none → t.versions.length < n) := by
      have hdrop : s.dropOldestLocked = some (id, t) → Shrinks s t ∧ (id ≠ none → t.versions.length < n) :=
        fun hd => ⟨(Storage.drop_spec hd).1, fun hid => ((Storage.drop_spec hd).2 hid).trans_le h.versions⟩
      split at ht
      · exact hdrop ht
      · next hlt =>
        have hlt : s.versions.length < n := by
          have := h.maxVersions
          omega
        split at ht
        · cases ht
          exact ⟨.of_eq rfl rfl rfl, fun _ => hlt⟩
        · split at ht
          · cases ht
            exact ⟨.of_eq rfl rfl rfl, fun _ => hlt⟩
          · exact hdrop ht
    obtain ⟨hshrinks, hroom⟩ := hroom
    refine ⟨hshrinks.maxVersions.trans h.maxVersions, hshrinks.versions.trans h.versions, ?_⟩
    dsimp only
    rw [hshrinks.writes, hw, List.append_nil]
    cases id with
    | none => simp
    | some id => simpa using hroom (some_ne_none id)

theorem Bounded.writeEnds (h : Bounded n s) {key : K} {id : Nat} (hw : (key, id) ∈ s.writes) (ok : Bool) :
    Bounded n ({ s with writes := s.writes.erase (key, id) }.writeEnds key id ok) := by
  obtain ⟨hone, hroom⟩ := h.writing _ hw
  have hnone : s.writes.erase (key, id) = [] := by simp [hone]
  rw [hnone]
  unfold Storage.writeEnds
  split
  · exact ⟨h.maxVersions, h.versions, by simp [Storage.freeLocked]⟩
  · exact .keep (s := { s with writes := [] }) h.maxVersions hroom rfl key id

/-- No write begins while another is in flight, and nothing is published while one is. -/
def Alone (s : Storage K) : Storage.Action K → Prop
  | .publish _ _ | .writeBegins _ => s.writes = []
  | _ => True

theorem Bounded.step (h : Bounded n s) {a : Storage.Action K} (halone : Alone s a)
    (hs : s.step a = some s') : Bounded n s' := by
  cases a with
  | reserve => exact h.reserve hs
  | storeReserved refs =>
    obtain ⟨-, rfl⟩ := ite_some_none_eq_some.mp hs
    exact h.shrinks (.of_eq rfl rfl rfl)
  | unstore ref =>
    obtain ⟨-, rfl⟩ := ite_some_none_eq_some.mp hs
    exact h.shrinks (.of_eq rfl rfl rfl)
  | free ref =>
    obtain ⟨-, rfl⟩ := ite_some_none_eq_some.mp hs
    exact h.shrinks (.of_eq rfl rfl rfl)
  | publish ref key =>
    obtain ⟨-, hs⟩ := ite_none_right_eq_some.mp hs
    have hrest : Bounded n { s with refs := s.refs.erase ref } := h.shrinks (.of_eq rfl rfl rfl)
    exact hrest.publish halone hs
  | readBegins key =>
    obtain ⟨v, -, rfl⟩ := map_eq_some_iff.mp hs
    exact h.shrinks (.of_eq rfl rfl rfl)
  | readEnds v damaged =>
    obtain ⟨-, rfl⟩ := ite_some_none_eq_some.mp hs
    unfold Storage.readEnds
    split
    · next hdrop => exact h.shrinks ⟨rfl, (Storage.filter_lt hdrop.1).le, rfl⟩
    · exact h.shrinks (.of_eq rfl rfl rfl)
  | writeBegins key => exact h.writeBegins halone hs
  | writeEnds key id ok =>
    obtain ⟨hw, rfl⟩ := ite_some_none_eq_some.mp hs
    exact h.writeEnds hw ok

/-- A storage that is only ever written to by one call at a time keeps no more versions than it may. -/
theorem versions_within_bound {budget maxVersions : Nat}
    (h : Machine.Runs Storage.step Alone ({ budget, maxVersions } : Storage K) s) :
    s.versions.length ≤ maxVersions := by
  have hinit : Bounded maxVersions ({ budget, maxVersions } : Storage K) := ⟨rfl, Nat.zero_le _, by simp⟩
  exact (Machine.Runs.invariant (fun _ _ _ hi ha hs => hi.step ha hs) hinit h).versions

/-- Two writes, one after the other, fill an index of two. -/
theorem versions_within_bound_full : ∃ s : Storage Bool,
    Machine.Runs Storage.step Alone { budget := 2, maxVersions := 2 } s ∧ s.versions.length = 2 ∧
      s.versions.length ≤ 2 := by
  have hrun : Machine.Runs Storage.step Alone ({ budget := 2, maxVersions := 2 } : Storage Bool) _ :=
    .head (a := .writeBegins false) rfl rfl (.head (a := .writeEnds false 0 true) trivial rfl
      (.head (a := .writeBegins true) rfl rfl (.head (a := .writeEnds true 1 true) trivial rfl (.refl _))))
  exact ⟨_, hrun, rfl, versions_within_bound hrun⟩

/-- Two writes that overlap both find an index of one version empty, and leave it with two. A publication
after them makes no room. -/
theorem versions_outgrow_bound : ∃ s : Storage Nat,
    Machine.Runs Storage.step (fun _ _ => True) { budget := 3, maxVersions := 1 } s ∧
      s.versions.length = 3 := by
  refine ⟨_, .head (a := .writeBegins 0) trivial rfl (.head (a := .writeBegins 1) trivial rfl
    (.head (a := .writeEnds 0 0 true) trivial rfl (.head (a := .writeEnds 1 1 true) trivial rfl
    (.head (a := .reserve) trivial rfl (.head (a := .storeReserved [2]) trivial rfl
    (.head (a := .publish 2 2) trivial rfl (.refl _))))))), rfl⟩

end Sproutfs.Spill

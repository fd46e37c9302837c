import Mathlib.Data.Nat.Log
import Sproutfs.VmMemory.PageRanges

/-!
# Page ranges are what was set

The tree's runs in order are what `Set` makes of those before it: a cut on both sides of the range, and the
run between them joined to the neighbours in its state. `Run` goes down the tree to the run a page is in, or
to the next one.
-/

namespace Sproutfs.PageRanges

open Run

namespace Map

variable {m m' left right : Map} {start stop : Nat} {s : State}

theorem first_eq (m : Map) : first m = m.toList.head? := by
  fun_induction first m with
  | case1 => rfl
  | case2 => rfl
  | case3 ll x lr h n item right h' n' ih => simp [ih, JoinTree.toList]

theorem last_eq (m : Map) : last m = m.toList.getLast? := by
  fun_induction last m with
  | case1 => rfl
  | case2 => simp [JoinTree.toList]
  | case3 left item rl x rr h n h' n' ih =>
    have hne : (JoinTree.node rl x rr h n).toList ≠ [] := by simp [JoinTree.toList]
    rw [ih, JoinTree.toList.eq_2 left, List.append_cons, List.getLast?_append_of_ne_nil _ hne]

theorem toList_cut (h : Maximal m.toList) (p : Nat) :
    (cuts.split m p).1.toList = below p m.toList ∧ (cuts.split m p).2.toList = above p m.toList :=
  Cutting.toList_split h.ordered p

theorem joinTail_joins (h : Maximal left.toList) (hb : left.Balanced) (r : Run State) :
    JoinsLeft left.toList r (joinTail left r).1.toList (joinTail left r).2 ∧ (joinTail left r).1.Balanced := by
  unfold joinTail
  rw [last_eq]
  cases hlast : left.toList.getLast? with
  | none => exact ⟨.apart fun t ht => (by rw [hlast] at ht; cases ht), hb⟩
  | some tail =>
    dsimp only
    by_cases hjoin : tail.stop = r.start ∧ tail.value = r.value
    · rw [dif_pos hjoin]
      obtain ⟨l, hl⟩ := List.getLast?_eq_some_iff.mp hlast
      rw [hl] at h
      refine ⟨.joins _ tail _ ?_ hjoin.1 hjoin.2 rfl rfl rfl, (Cutting.split_balanced hb _).1⟩
      rw [(toList_cut (hl ▸ h) _).1, hl, below_concat h]
    · rw [dif_neg hjoin]
      refine ⟨.apart fun t ht hstop hvalue => hjoin ?_, hb⟩
      rw [hlast] at ht
      cases ht
      exact ⟨hstop, hvalue⟩

theorem joinHead_joins (h : Maximal right.toList) (hb : right.Balanced) (r : Run State) :
    JoinsRight r right.toList (joinHead r right).1 (joinHead r right).2.toList ∧ (joinHead r right).2.Balanced := by
  unfold joinHead
  rw [first_eq]
  cases hhead : right.toList.head? with
  | none => exact ⟨.apart fun t ht => (by rw [hhead] at ht; cases ht), hb⟩
  | some head =>
    dsimp only
    by_cases hjoin : head.start = r.stop ∧ head.value = r.value
    · rw [dif_pos hjoin]
      obtain ⟨l, hl⟩ := List.head?_eq_some_iff.mp hhead
      rw [hl] at h
      refine ⟨.joins head _ _ ?_ hjoin.1.symm hjoin.2 rfl rfl rfl, (Cutting.split_balanced hb _).2⟩
      rw [(toList_cut (hl ▸ h) _).2, hl, above_cons h]
    · rw [dif_neg hjoin]
      refine ⟨.apart fun t ht hstop hvalue => hjoin ?_, hb⟩
      rw [hhead] at ht
      cases ht
      exact ⟨hstop.symm, hvalue⟩

/-- What is kept of every map: its runs are maximal, none is in the default state, and it is balanced. -/
structure Valid (m : Map) : Prop where
  maximal : Maximal m.toList
  states : ∀ p, held m.toList p ≠ some {}
  balanced : m.Balanced

theorem Valid.nil : Valid .nil := ⟨.nil, fun _ => nofun, trivial⟩

/-- A right part whose first run is taken off and put over it again is as it was. -/
theorem dropped_spec (left : Map) (h : Maximal right.toList) (hl : left.Balanced) (hr : right.Balanced) :
    (match first right with
      | some head => left.join head (cuts.split right head.stop).2
      | none => left : Map).toList = left.toList ++ right.toList ∧
    (match first right with
      | some head => left.join head (cuts.split right head.stop).2
      | none => left : Map).Balanced := by
  rw [first_eq]
  cases hhead : right.toList.head? with
  | none => exact ⟨by rw [List.head?_eq_none_iff.mp hhead, List.append_nil], hl⟩
  | some head =>
    obtain ⟨l, hlist⟩ := List.head?_eq_some_iff.mp hhead
    refine ⟨?_, (JoinTree.join_balanced _ _ _ hl (Cutting.split_balanced hr _).2).1⟩
    rw [JoinTree.toList_join, (toList_cut h _).2, hlist, above_cons (hlist ▸ h)]

/-- What setting a range to a state changes. -/
def Sets (m : Map) (start stop : Nat) (s : State) (m' : Map) : Prop :=
  ∀ p, held m'.toList p = if start ≤ p ∧ p < stop then (if s = {} then none else some s) else held m.toList p

theorem Valid.of_sets (h : Valid m) (hm : Maximal m'.toList) (hb : m'.Balanced) (hset : Sets m start stop s m') :
    Valid m' := by
  refine ⟨hm, fun p => ?_, hb⟩
  rw [hset p]
  split_ifs with hp hs
  · nofun
  · exact fun heq => hs (Option.some.inj heq)
  · exact h.states p

/-- A range takes the state it is set to, and nothing else changes. -/
theorem Valid.set (h : Valid m) (start stop : Nat) (s : State) :
    Valid (m.set start stop s) ∧ Sets m start stop s (m.set start stop s) := by
  unfold Map.set
  by_cases hlt : start < stop
  · obtain ⟨hleft, hrest⟩ := toList_cut h.maximal start
    have hright := (toList_cut (hrest ▸ h.maximal.above start) stop).2
    rw [hrest] at hright
    have hb := Cutting.split_balanced (c := cuts) h.balanced start
    have hb' := (Cutting.split_balanced (c := cuts) hb.2 stop).2
    rw [dif_pos hlt]
    generalize (cuts.split m start).1 = left at *
    generalize (cuts.split (cuts.split m start).2 stop).2 = right at *
    have hroom : Room left.toList ⟨start, stop, s, hlt⟩ right.toList := by
      rw [hleft, hright]
      exact ⟨h.maximal.below _, (h.maximal.above _).above _, fun _ => stop_le_of_below, fun _ => le_start_of_above⟩
    have hl : ∀ p, held left.toList p = if p < start then held m.toList p else none := fun p => hleft ▸ held_below
    have hr : ∀ p, held right.toList p = if stop ≤ p then held m.toList p else none := fun p => by
      rw [hright, held_above, held_above]
      by_cases hp : stop ≤ p
      · rw [if_pos hp, if_pos hp, if_pos (by omega)]
      · rw [if_neg hp, if_neg hp]
    by_cases hs : s = {}
    · -- The default state is no run.
      obtain ⟨hlist, hbalanced⟩ := dropped_spec left hroom.right hb.1 hb'
      have hset : Sets m start stop s _ := fun p => by
        rw [hlist, held_append, hl, hr, if_pos hs]
        split_ifs <;> first | rfl | omega | rw [Option.or_none]
      have hmaximal := List.pairwise_append.mpr ⟨hroom.left, hroom.right, fun a ha b hb =>
        .inl (Nat.lt_of_le_of_lt (hroom.before a ha) (Nat.lt_of_lt_of_le hlt (hroom.after b hb)))⟩
      rw [if_pos hs]
      exact ⟨h.of_sets (hlist ▸ hmaximal) hbalanced hset, hset⟩
    · obtain ⟨hjl, hbl⟩ := joinTail_joins hroom.left hb.1 ⟨start, stop, s, hlt⟩
      obtain ⟨hjr, hbr⟩ := joinHead_joins hroom.right hb' (joinTail left ⟨start, stop, s, hlt⟩).2
      obtain ⟨hmaximal, hheld, -, -⟩ := hroom.joined hjl hjr
      rw [← JoinTree.toList_join] at hmaximal hheld
      have hset : Sets m start stop s _ := fun p => by
        rw [hheld, if_neg hs]
        exact Cutting.held_around (hl p) (hr p)
      rw [if_neg hs]
      exact ⟨h.of_sets hmaximal (JoinTree.join_balanced _ _ _ hbl hbr).1 hset, hset⟩
  · rw [dif_neg hlt]
    exact ⟨h, fun p => (if_neg (by omega)).symm⟩

/-! ## Reading -/

/-- The state the runs give a page. -/
def state (m : Map) (page : Nat) : State := (held m.toList page).getD {}

/-- `Run` finds the run a page is in, or the gap before the next one. -/
theorem run_cases (h : Maximal m.toList) (start limit : Nat) :
    (∃ r ∈ m.toList, r.Covers start ∧ m.run start limit = (r.value, min limit r.stop)) ∨
      (∃ e, m.run start limit = ({}, e) ∧ e ≤ limit ∧ (e = limit ∨ ∃ r ∈ m.toList, start < r.start ∧ r.start = e) ∧
        ∀ r ∈ m.toList, start < r.stop → start < r.start ∧ e ≤ r.start) := by
  induction m generalizing limit with
  | nil => exact .inr ⟨limit, rfl, Nat.le_refl _, .inl rfl, by simp⟩
  | node l item r _ _ ihl ihr =>
    rw [JoinTree.toList] at h ⊢
    obtain ⟨hl, hrest, hbetween⟩ := List.pairwise_append.mp h
    obtain ⟨hitem, hr⟩ := List.pairwise_cons.mp hrest
    rw [Map.run]
    by_cases hlo : start < item.start
    · rw [if_pos hlo]
      rcases ihl hl (min limit item.start) with ⟨x, hx, hc, heq⟩ | ⟨e, heq, hle, hend, hall⟩
      · have hxi := (hbetween x hx item List.mem_cons_self).le
        refine .inl ⟨x, List.mem_append_left _ hx, hc, heq.trans ?_⟩
        rw [show min (min limit item.start) x.stop = min limit x.stop by omega]
      · refine .inr ⟨e, heq, by omega, ?_, fun x hx hlt => ?_⟩
        · rcases hend with hend | ⟨x, hx, hstart⟩
          · rcases Nat.le_total limit item.start with hm | hm
            · exact .inl (by omega)
            · exact .inr ⟨item, by simp, hlo, by omega⟩
          · exact .inr ⟨x, List.mem_append_left _ hx, hstart⟩
        · rcases List.mem_append.mp hx with hx | hx
          · exact hall x hx hlt
          · rcases List.mem_cons.mp hx with rfl | hx
            · omega
            · have hix := (hitem x hx).le
              have := item.nonempty
              omega
    · rw [if_neg hlo]
      by_cases hhi : item.stop ≤ start
      · rw [if_pos hhi]
        rcases ihr hr limit with ⟨x, hx, hfound⟩ | ⟨e, heq, hle, hend, hall⟩
        · exact .inl ⟨x, by simp [hx], hfound⟩
        · refine .inr ⟨e, heq, hle, ?_, fun x hx hlt => ?_⟩
          · exact hend.imp_right (Exists.imp fun x hx => ⟨by simp [hx.1], hx.2⟩)
          rcases List.mem_append.mp hx with hx | hx
          · have hxi := (hbetween x hx item List.mem_cons_self).le
            omega
          · rcases List.mem_cons.mp hx with rfl | hx
            · omega
            · exact hall x hx hlt
      · rw [if_neg hhi]
        exact .inl ⟨item, by simp, ⟨by omega, by omega⟩, rfl⟩

theorem state_of_mem (h : Maximal m.toList) {r : Run State} (hr : r ∈ m.toList) (hc : r.Covers p) :
    m.state p = r.value := by
  rw [state, h.held_of_mem hr hc, Option.getD_some]

theorem state_of_gap (h : ∀ r ∈ m.toList, ¬ r.Covers p) : m.state p = {} := by
  rw [state, held, Cutting.held_none h, Option.getD_none]

theorem run_fst (h : Maximal m.toList) (start limit : Nat) : (m.run start limit).1 = m.state start := by
  rcases run_cases h start limit with ⟨r, hr, hc, heq⟩ | ⟨e, heq, -, -, hall⟩
  · rw [heq, state_of_mem h hr hc]
  · rw [heq, state_of_gap fun r hr hc => Nat.not_lt.mpr hc.1 (hall r hr hc.2).1]

/-- `Run` is exact: the run of a page ends at the first page after it, or the limit, in another state. -/
theorem Valid.run (h : Valid m) {limit : Nat} (hlt : start < limit) :
    start < (m.run start limit).2 ∧ (m.run start limit).2 ≤ limit ∧
    (∀ p, start ≤ p → p < (m.run start limit).2 → m.state p = m.state start) ∧
    ((m.run start limit).2 < limit → m.state (m.run start limit).2 ≠ m.state start) := by
  have hdefault : ∀ r ∈ m.toList, r.value ≠ {} := fun r hr heq => by
    refine h.states r.start ?_
    rw [h.maximal.held_of_mem hr ⟨Nat.le_refl _, r.nonempty⟩, heq]
  rcases run_cases h.maximal start limit with ⟨r, hr, hc, heq⟩ | ⟨e, heq, hle, hend, hall⟩
  · rw [heq, state_of_mem h.maximal hr hc]
    refine ⟨by omega, Nat.min_le_left .., fun p hp hp' => state_of_mem h.maximal hr (by omega), fun hstop => ?_⟩
    rw [show min limit r.stop = r.stop by omega, state]
    have hne := h.maximal.held_stop hr
    cases hheld : held m.toList r.stop with
    | none => exact (hdefault r hr).symm
    | some v => exact fun heq => hne (hheld.trans (congrArg some heq))
  · have hnext : start < e := by
      rcases hend with rfl | ⟨r, -, hr, rfl⟩ <;> assumption
    have hgap : ∀ p, start ≤ p → p < e → m.state p = {} := fun p hp hp' => state_of_gap fun r hr hc => by
      have := (hall r hr (Nat.lt_of_le_of_lt hp hc.2)).2
      omega
    rw [heq, hgap start (Nat.le_refl _) hnext]
    refine ⟨hnext, hle, hgap, fun hlimit => ?_⟩
    obtain ⟨r, hr, -, rfl⟩ := hend.resolve_left (Nat.ne_of_lt hlimit)
    rw [state_of_mem h.maximal hr ⟨Nat.le_refl _, r.nonempty⟩]
    exact hdefault r hr

end Map

/-- The states that setting ranges one after another gives the pages. -/
def applied (sets : List (Nat × Nat × State)) : Nat → State :=
  sets.foldl (fun f s p => if s.1 ≤ p ∧ p < s.2.1 then s.2.2 else f p) fun _ => {}

def mapOf (sets : List (Nat × Nat × State)) : Map := sets.foldl (fun m s => m.set s.1 s.2.1 s.2.2) .nil

theorem mapOf_spec (sets : List (Nat × Nat × State)) : (mapOf sets).Valid ∧ (mapOf sets).state = applied sets := by
  induction sets using List.reverseRecOn with
  | nil => exact ⟨.nil, rfl⟩
  | append_singleton sets s ih =>
    obtain ⟨hvalid, hstate⟩ := ih
    obtain ⟨hvalid', hset⟩ := hvalid.set s.1 s.2.1 s.2.2
    rw [mapOf, applied, List.foldl_concat, List.foldl_concat, ← mapOf, ← applied, ← hstate]
    refine ⟨hvalid', funext fun p => ?_⟩
    rw [Map.state, hset p, Map.state]
    split_ifs with hp hs
    · exact hs.symm
    · rfl
    · rfl

/-- After any ranges are set, the map gives every page the state the last of them left, by maximal runs of
which `Run` gives the exact one, and it is balanced, so that its height is logarithmic in them. -/
theorem page_ranges_denote_sets (sets : List (Nat × Nat × State)) :
    (∀ page, (mapOf sets).get page = applied sets page) ∧
    (∀ r ∈ (mapOf sets).toList, r.start < r.stop ∧ ∀ p, r.Covers p → applied sets p = r.value) ∧
    (mapOf sets).toList.Pairwise (fun a b => a.stop ≤ b.start ∧ (a.stop = b.start → a.value ≠ b.value)) ∧
    (∀ start limit, start < limit → ∃ stop, (mapOf sets).run start limit = (applied sets start, stop) ∧
      start < stop ∧ stop ≤ limit ∧ (∀ p, start ≤ p → p < stop → applied sets p = applied sets start) ∧
      (stop < limit → applied sets stop ≠ applied sets start)) ∧
    (mapOf sets).Balanced ∧ (mapOf sets).depth ≤ 2 * Nat.log 2 ((mapOf sets).toList.length + 1) + 1 := by
  obtain ⟨hvalid, hstate⟩ := mapOf_spec sets
  rw [← hstate]
  refine ⟨fun page => Map.run_fst hvalid.maximal page _,
    fun r hr => ⟨r.nonempty, fun p hc => Map.state_of_mem hvalid.maximal hr hc⟩, ?_,
    fun start limit hlt => ⟨_, Prod.ext (Map.run_fst hvalid.maximal start limit) rfl, hvalid.run hlt⟩,
    hvalid.balanced, ?_⟩
  · refine hvalid.maximal.imp fun hab => ⟨hab.le, fun heq => ?_⟩
    exact (hab.resolve_left (Nat.not_lt.mpr (Nat.le_of_eq heq.symm))).2
  · have hpow := hvalid.balanced.two_pow_le
    have := Nat.le_log_of_pow_le (by decide) hpow
    omega

end Sproutfs.PageRanges

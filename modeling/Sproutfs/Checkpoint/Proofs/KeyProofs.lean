import Mathlib.Data.List.TakeWhile
import Sproutfs.Checkpoint.Keys

/-!
# No VM's key lies under another's

A key is the deployment's part and then a path: the tenant's elements, if any, and `control` before the
name, or `vm` and the name before the rest. Neither a tenant nor a name holds a slash.
-/

namespace Sproutfs.Control

open List Path

variable {id a b tenant name x : List Char}

/-! ## Identities -/

theorem cut_element (h : '/' ∉ a) : cut (a ++ '/' :: x) = some (a, x) := by
  have hne : ∀ c ∈ a, decide (c ≠ '/') = true := fun c hc => decide_eq_true fun heq => h (heq ▸ hc)
  rw [cut, if_pos (mem_append_right _ mem_cons_self), takeWhile_append_of_pos hne,
    dropWhile_append_of_pos hne]
  simp

theorem cut_some (h : cut id = some (a, x)) : '/' ∉ a ∧ id = a ++ '/' :: x := by
  obtain ⟨hin, heq⟩ := Option.ite_none_right_eq_some.mp h
  obtain ⟨rfl, rfl⟩ := Prod.mk.inj (Option.some.inj heq)
  refine ⟨fun hm => by simpa using mem_takeWhile_imp hm, ?_⟩
  have hne : id.dropWhile (· ≠ '/') ≠ [] := fun hnil =>
    absurd (dropWhile_eq_nil_iff.mp hnil _ hin) (by simp)
  have hhead : (id.dropWhile (· ≠ '/')).head hne = '/' := by
    simpa using head_dropWhile_not (· ≠ '/') hne
  conv_lhs => rw [← takeWhile_append_dropWhile (p := (· ≠ '/')) (l := id), ← cons_head_tail hne, hhead]
  rw [drop_one]

theorem not_slash_of_validTenant (h : validTenant tenant) : '/' ∉ tenant := by
  intro hm
  simp only [validTenant, Bool.and_eq_true] at h
  exact absurd (all_eq_true.mp h.2 _ hm) (by decide)

theorem ne_nil_of_validTenant (h : validTenant tenant) : tenant ≠ [] := by
  rintro rfl
  cases h

theorem not_slash_of_validName (h : validName name) : '/' ∉ name := by
  intro hm
  simp only [validName, Bool.and_eq_true, Bool.not_eq_true', any_eq_false] at h
  exact h.2 _ hm (by simp)

/-- A valid identity is made up of a tenant or none and a name, neither of which holds a slash. -/
structure Named (id tenant name : List Char) : Prop where
  valid : tenant = [] ∨ validTenant tenant
  plain : '/' ∉ name
  whole : id = if tenant = [] then name else tenant ++ '/' :: name

theorem named (h : validID id) : Named id (tenantOf id) (splitID id).2 := by
  unfold validID at h
  split_ifs at h with hlong hin
  · simp only [Bool.and_eq_true] at h
    have hcut : cut id = some (id.takeWhile (· ≠ '/'), (id.dropWhile (· ≠ '/')).drop 1) := if_pos hin
    rw [tenantOf, splitID, hcut]
    exact ⟨.inr h.1, not_slash_of_validName h.2,
      (cut_some hcut).2.trans (if_neg (ne_nil_of_validTenant h.1)).symm⟩
  · rw [tenantOf, splitID, cut, if_neg hin]
    exact ⟨.inl rfl, hin, rfl⟩

/-! ## Keys as paths -/

def tenants : List Char := "tenants".toList

def control : List Char := "control".toList

def vms : List Char := "vm".toList

theorem tenantPrefix_eq : tenantPrefix = tenants ++ ['/'] := rfl

theorem recordPrefix_eq : recordPrefix = control ++ ['/'] := rfl

@[simp] theorem plain_words : '/' ∉ tenants ∧ '/' ∉ control ∧ '/' ∉ vms := by decide

theorem words_ne : control ≠ vms ∧ vms ≠ control := by decide

/-- The elements that stand before a VM's own. -/
def tenantElements (id : List Char) : List (List Char) :=
  if tenantOf id = [] then [] else [tenants, tenantOf id]

theorem namespaceOf_append : namespaceOf id ++ x = path '/' (tenantElements id) x := by
  unfold namespaceOf tenantNamespace tenantElements
  rw [tenantPrefix_eq]
  split_ifs
  · rfl
  · simp [path]

theorem plain_tenantElements (h : validID id) : ∀ e ∈ tenantElements id, '/' ∉ e := by
  unfold tenantElements
  split_ifs with hnone
  · simp
  · have := not_slash_of_validTenant ((named h).valid.resolve_left hnone)
    simpa using this

/-- Two VMs' elements agree only where the tenants do. -/
theorem prefix_tenantElements {e f : List Char} {es fs : List (List Char)} (he : e ≠ tenants)
    (hf : f ≠ tenants) (h : tenantElements a ++ e :: es <+: tenantElements b ++ f :: fs) :
    tenantOf a = tenantOf b ∧ e :: es <+: f :: fs := by
  unfold tenantElements at h
  split_ifs at h with ha hb hb
  · exact ⟨ha.trans hb.symm, h⟩
  · exact absurd (cons_prefix_cons.mp h).1 he
  · exact absurd (cons_prefix_cons.mp h).1 hf.symm
  · simpa only [cons_append, nil_append, cons_prefix_cons, true_and] using h

end Sproutfs.Control

namespace Sproutfs.Checkpoint

open List Path Control

variable {p vm a b k x tenant : List Char}

theorem vmPrefix_append : vmPrefix p vm ++ x = deploymentBase p ++
    path '/' (tenantElements vm ++ [vms, (splitID vm).2]) x := by
  rw [path_append, ← namespaceOf_append, vmPrefix, show "vm/".toList = vms ++ ['/'] from rfl]
  simp [path]

/-- What the key of a VM looks like after its tenant's elements. -/
structure Shape (p vm k : List Char) (e : List Char) (es : List (List Char)) (x : List Char) :
    Prop where
  key : k = deploymentBase p ++ path '/' (tenantElements vm ++ e :: es) x
  own : e = control ∧ es = [] ∧ x = (splitID vm).2 ∨ e = vms ∧ es = [(splitID vm).2]

theorem newObjectKey_some {value : List Char} (h : newObjectKey value = some k) : k = value :=
  (Option.some.inj (Option.ite_none_left_eq_some.mp h).2).symm

theorem key_some (h : key p vm = some k) : Control.validID vm ∧
    k = deploymentBase p ++ path '/' (tenantElements vm ++ [control]) (splitID vm).2 := by
  obtain ⟨hvalid, h⟩ := Option.ite_none_right_eq_some.mp h
  refine ⟨hvalid, ?_⟩
  rw [newObjectKey_some h, recordName, append_assoc, namespaceOf_append, path_append, recordPrefix_eq]
  simp [path]

theorem objectKey_some {sequence : Nat} {name : List Char}
    (h : objectKey p vm sequence name = some k) :
    Control.validID vm ∧ ∃ x, k = vmPrefix p vm ++ x := by
  obtain ⟨hvalid, h⟩ := Option.ite_none_right_eq_some.mp h
  rw [checkpointPrefix, append_assoc, append_assoc, append_assoc] at h
  exact ⟨hvalid, _, newObjectKey_some h⟩

theorem Keyed.shape (h : Keyed p vm k) :
    Control.validID vm ∧ ∃ e es x, Shape p vm k e es x := by
  rcases h with h | ⟨sequence, name, h⟩
  · exact ⟨(key_some h).1, _, _, _, (key_some h).2, .inl ⟨rfl, rfl, rfl⟩⟩
  · obtain ⟨hvalid, x, rfl⟩ := objectKey_some h
    exact ⟨hvalid, _, _, x, vmPrefix_append, .inr ⟨rfl, rfl⟩⟩

section

variable {e : List Char} {es : List (List Char)} (h : Shape p a k e es x)

include h

theorem Shape.ne_tenants : e ≠ tenants := by
  rcases h.own with ⟨rfl, -⟩ | ⟨rfl, -⟩ <;> decide

theorem Shape.plain (ha : Control.validID a) : ∀ f ∈ tenantElements a ++ e :: es, '/' ∉ f := by
  have hname := (named ha).plain
  have := plain_tenantElements ha
  rcases h.own with ⟨rfl, rfl, -⟩ | ⟨rfl, rfl⟩ <;> simp_all [or_imp]

end

theorem eq_of_split (ha : Control.validID a) (hb : Control.validID b) (ht : tenantOf a = tenantOf b)
    (hn : (splitID a).2 = (splitID b).2) : a = b := by
  rw [(named ha).whole, (named hb).whole, ht, hn]

/-- A key under a VM's prefix is the VM's own. -/
theorem Keyed.under (h : Keyed p a k) (hb : Control.validID b)
    (hunder : vmPrefix p b <+: k) : a = b := by
  obtain ⟨ha, e, es, x, hs⟩ := h.shape
  have hplain : ∀ f ∈ tenantElements b ++ [vms, (splitID b).2], '/' ∉ f := by
    have := (named hb).plain
    have := plain_tenantElements hb
    simp_all [or_imp]
  rw [hs.key, ← append_nil (vmPrefix p b), vmPrefix_append, prefix_append_right_inj] at hunder
  rcases path_prefix hplain (hs.plain ha) hunder with hle | ⟨hle, hslash⟩
  · obtain ⟨ht, hle⟩ := prefix_tenantElements (by decide) hs.ne_tenants hle
    rcases hs.own with ⟨rfl, -⟩ | ⟨rfl, rfl⟩
    · exact absurd (cons_prefix_cons.mp hle).1 (by decide)
    · exact eq_of_split ha hb ht.symm (by simpa [cons_prefix_cons, eq_comm] using hle)
  · obtain ⟨ht, hle⟩ := prefix_tenantElements hs.ne_tenants (by decide) hle
    rcases hs.own with ⟨rfl, -, rfl⟩ | ⟨rfl, rfl⟩
    · exact absurd hslash (named ha).plain
    · exact eq_of_split ha hb ht (by simpa [cons_prefix_cons] using hle)

theorem Keyed.inj (ha : Keyed p a k) (hb : Keyed p b k) : a = b := by
  obtain ⟨hva, e, es, x, hs⟩ := ha.shape
  obtain ⟨hvb, f, fs, y, hs'⟩ := hb.shape
  have heq := append_cancel_left (hs.key.symm.trans hs'.key)
  obtain ⟨ht, hle⟩ : tenantOf a = tenantOf b ∧ (e :: es <+: f :: fs ∨ f :: fs <+: e :: es) := by
    rcases path_prefix (hs.plain hva) (hs'.plain hvb) ⟨[], (append_nil _).trans heq⟩ with h | ⟨h, -⟩
    · exact (prefix_tenantElements hs.ne_tenants hs'.ne_tenants h).imp_right .inl
    · exact (prefix_tenantElements hs'.ne_tenants hs.ne_tenants h).imp Eq.symm .inr
  refine eq_of_split hva hvb ht ?_
  rcases hs.own with ⟨rfl, rfl, rfl⟩ | ⟨rfl, rfl⟩ <;> rcases hs'.own with ⟨rfl, rfl, rfl⟩ | ⟨rfl, rfl⟩
  · rwa [tenantElements, tenantElements, ht, path_inj] at heq
  · simp [cons_prefix_cons, words_ne] at hle
  · simp [cons_prefix_cons, words_ne] at hle
  · simpa [cons_prefix_cons, eq_comm] using hle

/-! ## Tenants -/

theorem Shape.namespaceOf {e : List Char} {es : List (List Char)} (h : Shape p a k e es x) :
    k = deploymentBase p ++ (namespaceOf a ++ path '/' (e :: es) x) := by
  rw [h.key, path_append, namespaceOf_append]

theorem Keyed.under_tenant (h : Keyed p a k) (ht : validTenant tenant) :
    deploymentBase p ++ tenantNamespace tenant <+: k ↔ tenantOf a = tenant := by
  obtain ⟨ha, e, es, x, hs⟩ := h.shape
  have hspace : tenantNamespace tenant = path '/' [tenants, tenant] [] := by
    rw [tenantNamespace, if_neg (ne_nil_of_validTenant ht), tenantPrefix_eq]
    simp [path]
  constructor
  · intro hle
    rw [hs.key, prefix_append_right_inj, hspace] at hle
    have hplain : ∀ e ∈ [tenants, tenant], '/' ∉ e := by simpa using not_slash_of_validTenant ht
    have hne := hs.ne_tenants
    rcases path_prefix hplain (hs.plain ha) hle with hle | ⟨hle, -⟩
    · unfold tenantElements at hle
      split_ifs at hle with hnone
      · exact absurd (cons_prefix_cons.mp hle).1.symm hne
      · exact (by simpa [cons_prefix_cons] using hle : tenant = tenantOf a).symm
    · unfold tenantElements at hle
      split_ifs at hle with hnone
      · exact absurd (cons_prefix_cons.mp hle).1 hne
      · exact (cons_prefix_cons.mp (cons_prefix_cons.mp hle).2).1
  · rintro rfl
    rw [hs.namespaceOf, prefix_append_right_inj]
    exact prefix_append ..

theorem Keyed.cutNamespace (h : Keyed p a k) :
    ∃ rest, k = deploymentBase p ++ (namespaceOf a ++ rest) ∧
      cutNamespace (namespaceOf a ++ rest) = some (tenantOf a, rest) := by
  obtain ⟨ha, e, es, x, hs⟩ := h.shape
  refine ⟨_, hs.namespaceOf, ?_⟩
  unfold Control.cutNamespace Control.namespaceOf tenantNamespace
  by_cases hnone : tenantOf a = []
  · have hout : ¬ tenantPrefix <+: path '/' (e :: es) x := by
      rw [tenantPrefix_eq, path_cons]
      exact fun hle => hs.ne_tenants (prefix_at_sep plain_words.1 (hs.plain ha e (by simp)) hle).1.symm
    rw [if_pos hnone, nil_append, if_neg (by simpa using hout), hnone]
  · have hv := (named ha).valid.resolve_left hnone
    have hkey : tenantPrefix ++ tenantOf a ++ ['/'] ++ path '/' (e :: es) x =
        tenantPrefix ++ (tenantOf a ++ '/' :: path '/' (e :: es) x) := by simp
    rw [if_neg hnone, hkey, if_pos ( isPrefixOf_iff_prefix.mpr (prefix_append ..)), drop_left,
      cut_element (not_slash_of_validTenant hv), Option.filter_some, if_pos hv]

/-! ## Every key -/

/-- Whatever the deployment's prefix, no key of a VM is another's or lies under a prefix that the other is
listed, swept or deleted by; the keys under a tenant's namespace are those of its VMs; a key without the
deployment's part is cut into its tenant and the rest; and a checkpoint's index and parts are among its
VM's keys. -/
theorem object_keys_isolated (p : List Char) :
    (∀ a b, Control.validID a → Control.validID b → a ≠ b → ∀ k, Keyed p a k →
      ¬ Keyed p b k ∧ ¬ vmPrefix p b <+: k ∧
        ¬ deletedPrefix p b <+: k ∧ ∀ sequence, ¬ checkpointPrefix p b sequence <+: k) ∧
    (∀ a tenant, validTenant tenant → ∀ k, Keyed p a k →
      (deploymentBase p ++ tenantNamespace tenant <+: k ↔ tenantOf a = tenant)) ∧
    (∀ a k, Keyed p a k → ∃ rest, k = deploymentBase p ++ (namespaceOf a ++ rest) ∧
      cutNamespace (namespaceOf a ++ rest) = some (tenantOf a, rest)) ∧
    ∀ a sequence number k, indexKey p a sequence = some k ∨
      partKey p a sequence number = some k ∨ supersededPartKey p a sequence = some k →
        Keyed p a k := by
  refine ⟨fun a b _ hb hne k hk => ?_, fun a tenant ht k hk => hk.under_tenant ht,
    fun a k hk => hk.cutNamespace, fun a sequence number k hk => .inr ?_⟩
  · have hout : ∀ x, ¬ vmPrefix p b ++ x <+: k := fun x hle =>
      hne (hk.under hb ((prefix_append ..).trans hle))
    refine ⟨fun hk' => hne (hk.inj hk'), fun hle => hne (hk.under hb hle), hout _, fun sequence => ?_⟩
    rw [checkpointPrefix, append_assoc, append_assoc]
    exact hout _
  · rcases hk with hk | hk | hk <;> exact ⟨_, _, hk⟩

end Sproutfs.Checkpoint

import ClassLang.Cold
import ClassLang.Proofs.Arena
import Mathlib.Data.List.Perm.Subperm

namespace ClassLang.ColdTable

open Arena

variable {t u : ColdTable} {c d r a b : ColdId} {n : Nat} {f : Cold → Cold}

inductive Leads (t : ColdTable) : Nat → ColdId → ColdId → Prop
  | root {c : ColdId} : (t.get c).forward = none → Leads t 0 c c
  | step {n : Nat} {c d r : ColdId} : (t.get c).forward = some d → Leads t n d r →
      Leads t (n + 1) c r

/-- Merges lead from each placeholder to one that stands for it, and never to an id outside of the
table. -/
structure Rooted (t : ColdTable) : Prop where
  leads : ∀ c, ∃ n r, Leads t n c r
  valid : ∀ c d, (t.get c).forward = some d → t.Valid d

theorem Leads.unique {m : Nat} {r' : ColdId} (h : Leads t n c r) (h' : Leads t m c r') :
    n = m ∧ r = r' := by
  induction h generalizing m with
  | root hc =>
    cases h' with
    | root => exact ⟨rfl, rfl⟩
    | step hd => rw [hc] at hd; cases hd
  | step hd _ ih =>
    cases h' with
    | root hc => rw [hc] at hd; cases hd
    | step hd' hl =>
      rw [hd] at hd'
      cases hd'
      obtain ⟨rfl, rfl⟩ := ih hl
      exact ⟨rfl, rfl⟩

theorem Leads.forward (h : Leads t n c r) : (t.get r).forward = none := by
  induction h with
  | root hc => exact hc
  | step _ _ ih => exact ih

theorem valid_of_forward (h : (t.get c).forward = some d) : t.Valid c := by
  apply valid_of_get_ne
  intro he
  rw [he] at h
  cases h

section

variable (h : Leads t n c r)
include h

/-- The placeholders passed on the way are distinct, because from each of them the way has another
length. -/
theorem Leads.path :
    ∃ path : List ColdId, path.length = n ∧ path.Nodup ∧ ∀ x ∈ path, t.Valid x ∧ ∃ k, k ≤ n ∧
      Leads t k x r := by
  induction h with
  | root => exact ⟨[], rfl, List.nodup_nil, by simp⟩
  | @step n c d r hd hl ih =>
    obtain ⟨path, hlen, hnd, hpath⟩ := ih
    refine ⟨c :: path, by simp [hlen], List.nodup_cons.2 ⟨fun hc => ?_, hnd⟩, ?_⟩
    · obtain ⟨_, k, hk, hck⟩ := hpath c hc
      have := (hck.unique (.step hd hl)).1
      omega
    · intro x hx
      rcases List.mem_cons.1 hx with rfl | hx
      · exact ⟨valid_of_forward hd, n + 1, Nat.le_refl _, .step hd hl⟩
      · obtain ⟨hv, k, hk, hxk⟩ := hpath x hx
        exact ⟨hv, k, by omega, hxk⟩

theorem Leads.length_le : n ≤ t.size := by
  obtain ⟨path, hlen, hnd, hpath⟩ := h.path
  have hsub : path ⊆ t.ids := fun x hx => mem_ids.2 (hpath x hx).1
  have hle := (List.subperm_of_subset hnd hsub).length_le
  simpa [hlen, Arena.ids] using hle

theorem follow_of_leads {m : Nat} (hm : n ≤ m) : t.follow m c = r := by
  induction h generalizing m with
  | root hc => cases m <;> simp [follow, hc]
  | step hd _ ih =>
    obtain ⟨m, rfl⟩ := Nat.exists_eq_add_of_le' (Nat.lt_of_lt_of_le (Nat.succ_pos _) hm)
    simp only [follow, hd]
    exact ih (by omega)

theorem find_of_leads : t.find c = r := follow_of_leads h h.length_le

end

theorem Rooted.leads_find (h : t.Rooted) (c : ColdId) : ∃ n, Leads t n c (t.find c) := by
  obtain ⟨n, r, hl⟩ := h.leads c
  exact ⟨n, (find_of_leads hl).symm ▸ hl⟩

theorem Rooted.forward_find (h : t.Rooted) (c : ColdId) : (t.get (t.find c)).forward = none := by
  obtain ⟨n, hl⟩ := h.leads_find c
  exact hl.forward

theorem find_of_forward (h : (t.get c).forward = none) : t.find c = c := find_of_leads (.root h)

theorem Rooted.find_find (h : t.Rooted) (c : ColdId) : t.find (t.find c) = t.find c :=
  find_of_forward (h.forward_find c)

theorem Rooted.valid_find (h : t.Rooted) (hc : t.Valid c) : t.Valid (t.find c) := by
  obtain ⟨n, hl⟩ := h.leads_find c
  generalize t.find c = r at hl
  induction hl with
  | root => exact hc
  | step hd _ ih => exact ih (h.valid _ _ hd)

theorem follow_congr (h : ∀ c, (u.get c).forward = (t.get c).forward) (n : Nat) (c : ColdId) :
    u.follow n c = t.follow n c := by
  induction n generalizing c with
  | zero => rfl
  | succ n ih => simp only [follow, h, ih]

theorem find_congr (h : ∀ c, (u.get c).forward = (t.get c).forward) (hs : u.size = t.size)
    (c : ColdId) : u.find c = t.find c := by
  rw [find, hs, follow_congr h, find]

theorem find_update (hf : ∀ c, (f c).forward = c.forward) (c d : ColdId) :
    (t.update c f).find d = t.find d :=
  find_congr (get_modify_eq Cold.forward hf) (size_modify _ _ _) d

theorem valid_of_signature {s : TypeId} (h : (t.get c).signature = some s) : t.Valid c := by
  apply valid_of_get_ne
  intro he
  rw [he] at h
  cases h

theorem leads_congr (h : ∀ c, (u.get c).forward = (t.get c).forward) (hl : Leads t n c r) :
    Leads u n c r := by
  induction hl with
  | root hc => exact .root ((h _).trans hc)
  | step hd _ ih => exact .step ((h _).trans hd) ih

theorem Rooted.congr (ht : t.Rooted) (h : ∀ c, (u.get c).forward = (t.get c).forward)
    (hs : t.size ≤ u.size) : u.Rooted ∧ ∀ c, u.find c = t.find c := by
  refine ⟨⟨fun c => ?_, fun c d hd => ?_⟩, fun c => ?_⟩
  · obtain ⟨n, r, hl⟩ := ht.leads c
    exact ⟨n, r, leads_congr h hl⟩
  · exact Nat.lt_of_lt_of_le (ht.valid c d ((h c).symm.trans hd)) hs
  · obtain ⟨n, hl⟩ := ht.leads_find c
    exact find_of_leads (leads_congr h hl)

/-- Pointing a representative at another one moves its whole class there. -/
theorem Rooted.redirect (ht : t.Rooted) (ha : (t.get a).forward = none)
    (hb : (t.get b).forward = none) (hva : t.Valid a) (hne : a ≠ b) (hs : u.size = t.size)
    (hub : (u.get b).forward = some a) (h : ∀ c, c ≠ b → (u.get c).forward = (t.get c).forward) :
    u.Rooted ∧ ∀ c, u.find c = if t.find c = b then a else t.find c := by
  have hua : (u.get a).forward = none := (h a hne).trans ha
  have hlead {n : Nat} {c r : ColdId} (hl : Leads t n c r) :
      ∃ m, Leads u m c (if r = b then a else r) := by
    induction hl with
    | @root c hc =>
      by_cases hcb : c = b
      · subst hcb
        exact ⟨1, by simpa using Leads.step hub (.root hua)⟩
      · exact ⟨0, by simpa [hcb] using Leads.root ((h c hcb).trans hc)⟩
    | @step n c d r hd _ ih =>
      obtain ⟨m, hm⟩ := ih
      have hcb : c ≠ b := by
        rintro rfl
        rw [hb] at hd
        cases hd
      exact ⟨m + 1, .step ((h c hcb).trans hd) hm⟩
  refine ⟨⟨fun c => ?_, fun c d hd => ?_⟩, fun c => ?_⟩
  · obtain ⟨n, r, hl⟩ := ht.leads c
    obtain ⟨m, hm⟩ := hlead hl
    exact ⟨m, _, hm⟩
  · by_cases hcb : c = b
    · subst hcb
      rw [hub] at hd
      cases hd
      exact Nat.lt_of_lt_of_eq hva hs.symm
    · exact Nat.lt_of_lt_of_eq (ht.valid c d ((h c hcb).symm.trans hd)) hs.symm
  · obtain ⟨n, hl⟩ := ht.leads_find c
    obtain ⟨m, hm⟩ := hlead hl
    exact find_of_leads hm

theorem get_create (t : ColdTable) (l : LambdaId) (c : ColdId) :
    (t.create l).2.get c = if c = ⟨t.size⟩ then { sites := [l] } else t.get c := get_push t _ c

theorem Rooted.create (h : t.Rooted) (l : LambdaId) :
    (t.create l).2.Rooted ∧ ∀ c, (t.create l).2.find c = t.find c := by
  refine h.congr (fun c => ?_) (Nat.le_trans (Nat.le_succ _) (Nat.le_of_eq (size_push t _).symm))
  rw [get_create]
  split
  · rename_i hc
    rw [hc, get_of_not_valid (not_valid_size t)]
    rfl
  · rfl

theorem Rooted.update (h : t.Rooted) (hf : ∀ c, (f c).forward = c.forward) (c : ColdId) :
    (t.update c f).Rooted :=
  (h.congr (get_modify_eq Cold.forward hf) (Nat.le_of_eq (size_modify _ _ _).symm)).1

theorem get_update (t : ColdTable) (c d : ColdId) :
    (t.update c f).get d = if t.find c = d ∧ t.Valid (t.find c) then f (t.get d) else t.get d :=
  get_modify t (t.find c) d f

theorem lookup_update (hf : ∀ c, (f c).forward = c.forward) (c d : ColdId) :
    (t.update c f).lookup d = if t.find c = t.find d ∧ t.Valid (t.find c) then f (t.lookup d)
      else t.lookup d := by
  rw [lookup, find_update hf, get_update, lookup]

theorem merge_of_eq {x y : ColdId} (h : t.find x = t.find y) : (t.merge x y).2 = t := by
  simp [merge, h]

section Merge

variable {x y : ColdId} (h : t.Rooted) (hx : t.Valid x) (hy : t.Valid y) (hne : t.find x ≠ t.find y)
include h hx hy hne

theorem Rooted.get_merge (c : ColdId) :
    (t.merge x y).2.get c = if c = t.find x
      then { t.lookup x with sites := (t.lookup x).sites ++ (t.lookup y).sites } else if c =
      t.find y then { t.lookup y with sites := [], forward := some (t.find x) } else t.get c := by
  have hvx := h.valid_find hx
  have hvy := h.valid_find hy
  simp only [merge, hne, if_false, get_modify, valid_modify, hvx, hvy, and_true, lookup]
  by_cases hcx : c = t.find x
  · subst hcx
    simp [Ne.symm hne]
  · by_cases hcy : c = t.find y
    · subst hcy
      simp [hne, Ne.symm hne]
    · simp [hcx, hcy, Ne.symm hcx, Ne.symm hcy]

theorem Rooted.merge : (t.merge x y).2.Rooted ∧
    ∀ c, (t.merge x y).2.find c = if t.find c = t.find y then t.find x else t.find c := by
  have hget := h.get_merge hx hy hne
  refine h.redirect (h.forward_find x) (h.forward_find y) (h.valid_find hx) hne ?_ ?_ fun c hc => ?_
  · simp [ColdTable.merge, hne]
  · rw [hget, if_neg (Ne.symm hne), if_pos rfl]
  · rw [hget, if_neg hc]
    split
    · rename_i he
      rw [he]
      rfl
    · rfl

end Merge

structure Firm (t u : ColdTable) (c : ColdId) : Prop where
  signature : (u.lookup c).signature = (t.lookup c).signature
  alone : ∀ d, u.find d = u.find c → t.find d = t.find c

theorem Firm.refl (t : ColdTable) (c : ColdId) : t.Firm t c := ⟨rfl, fun _ => id⟩

theorem Firm.trans {v : ColdTable} (h : t.Firm u c) (h' : u.Firm v c) : t.Firm v c :=
  ⟨h'.signature.trans h.signature, fun d hd => h.alone d (h'.alone d hd)⟩

theorem Rooted.firm_create (h : t.Rooted) (l : LambdaId) (hc : (t.lookup c).signature ≠ none) :
    t.Firm (t.create l).2 c := by
  have hfind := (h.create l).2
  refine ⟨?_, fun d hd => ?_⟩
  · rw [lookup, hfind, get_create, if_neg, lookup]
    intro hnew
    rw [lookup, hnew, get_of_not_valid (not_valid_size t)] at hc
    exact hc rfl
  · rwa [hfind, hfind] at hd

theorem Rooted.firm_merge {x y : ColdId} (h : t.Rooted) (hx : t.Valid x) (hy : t.Valid y)
    (hne : t.find x ≠ t.find y) (hsx : (t.lookup x).signature = none)
    (hsy : (t.lookup y).signature = none) (hc : (t.lookup c).signature ≠ none) :
    t.Firm (t.merge x y).2 c := by
  have hfind := (h.merge hx hy hne).2
  have hother {z : ColdId} (hz : (t.lookup z).signature = none) : t.find c ≠ t.find z := by
    intro he
    rw [lookup, he] at hc
    exact hc hz
  refine ⟨?_, fun d hd => ?_⟩
  · rw [lookup, hfind, if_neg (hother hsy), h.get_merge hx hy hne, if_neg (hother hsx),
      if_neg (hother hsy), lookup]
  · rw [hfind, hfind, if_neg (hother hsy)] at hd
    split at hd
    · exact absurd hd.symm (hother hsx)
    · exact hd

theorem firm_update (hf : ∀ c, (f c).forward = c.forward) {x : ColdId}
    (hc : (∀ c, (f c).signature = c.signature) ∨ t.find x ≠ t.find c) :
    t.Firm (t.update x f) c := by
  refine ⟨?_, fun d hd => ?_⟩
  · rw [lookup_update hf]
    split
    · rename_i hx
      rcases hc with hc | hc
      · exact hc _
      · exact absurd hx.1 hc
    · rfl
  · rwa [find_update hf, find_update hf] at hd

end ClassLang.ColdTable

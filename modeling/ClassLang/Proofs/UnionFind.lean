import ClassLang.Proofs.Colds
import Mathlib.Logic.Relation

/-!
Placeholders and their merges as a union-find structure. The representative of a placeholder is
known from the merges alone, and holds the sites of its whole class.
-/

namespace ClassLang.ColdTable

open Arena List

inductive Op
  | create (site : LambdaId)
  | merge (target source : ColdId)
  | find (c : ColdId)
  | write (c : ColdId) (signature : Option TypeId) (fixing : Bool)

def Op.ids : Op → List ColdId
  | .create _ => []
  | .merge x y => [x, y]
  | .find c | .write c _ _ => [c]

/-- A table with what was done to it: the sites with the ids they were created for, and the pairs
that were merged. -/
structure History where
  table : ColdTable := {}
  born : List (ColdId × LambdaId) := []
  merges : List (ColdId × ColdId) := []

def History.step (h : History) : Op → History
  | .create l =>
    { h with table := (h.table.create l).2, born := ((h.table.create l).1, l) :: h.born }
  | .merge x y => { h with table := (h.table.merge x y).2, merges := (x, y) :: h.merges }
  | .find _ => h
  | .write c signature fixing =>
    { h with table := h.table.update c fun d => { d with signature, fixing } }

inductive History.Reached : History → Prop
  | start : Reached {}
  | step {h : History} (op : Op) : Reached h → (∀ c ∈ op.ids, h.table.Valid c) → Reached (h.step op)

def History.sites (h : History) (c : ColdId) : List LambdaId :=
  (h.born.filter (h.table.find ·.1 = c)).map Prod.snd

def History.Connected (h : History) : ColdId → ColdId → Prop :=
  Relation.EqvGen fun a b => (a, b) ∈ h.merges

variable {t : ColdTable} {x y c : ColdId}

theorem Rooted.find_merge (h : t.Rooted) (hx : t.Valid x) (hy : t.Valid y) :
    (t.merge x y).2.Rooted ∧ ∀ c, (t.merge x y).2.find c = if t.find c = t.find y then t.find x
      else t.find c := by
  by_cases hxy : t.find x = t.find y
  · rw [merge_of_eq hxy]
    refine ⟨h, fun c => ?_⟩
    split
    · rename_i hc
      exact hc.trans hxy.symm
    · rfl
  · exact h.merge hx hy hxy

theorem fst_merge (t : ColdTable) (x y : ColdId) : (t.merge x y).1 = t.find x := by
  simp only [ColdTable.merge]
  split <;> rfl

theorem size_merge (t : ColdTable) (x y : ColdId) : (t.merge x y).2.size = t.size := by
  simp only [ColdTable.merge]
  split <;> simp

theorem filter_append_perm_or {α : Type} {p q : α → Bool} {l : List α}
    (h : ∀ a ∈ l, ¬ (p a ∧ q a)) :
    (l.filter p ++ l.filter q).Perm (l.filter fun a => p a || q a) := by
  induction l with
  | nil => exact .nil
  | cons a l ih =>
    have ih := ih fun b hb => h b (mem_cons_of_mem _ hb)
    have ha := h a mem_cons_self
    cases hp : p a <;> cases hq : q a
    · simpa [hp, hq] using ih
    · simpa [hp, hq] using perm_middle.trans (ih.cons a)
    · simpa [hp, hq] using ih.cons a
    · exact absurd ⟨hp, hq⟩ ha

theorem flatMap_filter_perm {α κ : Type} [DecidableEq κ] (k : α → κ) {ks : List κ} {l : List α}
    (hks : ks.Nodup) (h : ∀ a ∈ l, k a ∈ ks) : (ks.flatMap fun c => l.filter (k · = c)).Perm l := by
  induction ks generalizing l with
  | nil => simp [eq_nil_iff_forall_not_mem.2 fun a ha => not_mem_nil (h a ha)]
  | cons c ks ih =>
    obtain ⟨hc, hks⟩ := nodup_cons.1 hks
    have hrest : ks.flatMap (fun d => l.filter (k · = d)) =
        ks.flatMap fun d => (l.filter fun a => ! decide (k a = c)).filter (k · = d) := by
      refine flatMap_congr fun d hd => ?_
      rw [filter_filter]
      refine filter_congr fun a _ => ?_
      by_cases had : k a = d
      · simp [had, ne_of_mem_of_not_mem hd hc]
      · simp [had]
    rw [flatMap_cons, hrest]
    refine ((ih hks fun a ha => ?_).append_left _).trans (filter_append_perm _ l)
    obtain ⟨ha, hne⟩ := mem_filter.1 ha
    exact (mem_cons.1 (h a ha)).resolve_left (by simpa using hne)

structure History.Correct (h : History) : Prop where
  rooted : h.table.Rooted
  born : ∀ c, h.table.Valid c ↔ c ∈ h.born.map Prod.fst
  connected : ∀ x y, h.table.find x = h.table.find y ↔ h.Connected x y
  sites : ∀ c, (h.table.get c).sites.Perm (h.sites c)

namespace History

variable {h : History}

theorem connected_step_merge (hc : h.Correct) (hx : h.table.Valid x) (hy : h.table.Valid y)
    (a b : ColdId) :
    (h.step (.merge x y)).table.find a = (h.step (.merge x y)).table.find b ↔
      (h.step (.merge x y)).Connected a b := by
  have hfind := (hc.rooted.find_merge hx hy).2
  have hold {a b : ColdId} (hab : h.table.find a = h.table.find b) :
    (h.step (.merge x y)).Connected a b :=
    Relation.EqvGen.mono (fun _ _ => mem_cons_of_mem (x, y)) _ _ ((hc.connected a b).1 hab)
  have hnew : (h.step (.merge x y)).Connected x y := .rel _ _ mem_cons_self
  constructor
  · intro hab
    rw [step, hfind, hfind] at hab
    split at hab <;> split at hab
    · rename_i ha hb
      exact hold (ha.trans hb.symm)
    · rename_i ha _
      exact .trans _ _ _ (hold ha) (.trans _ _ _ (.symm _ _ hnew) (hold hab))
    · rename_i _ hb
      exact .trans _ _ _ (hold hab) (.trans _ _ _ hnew (hold hb.symm))
    · exact hold hab
  · intro hab
    induction hab with
    | rel a b hab =>
      rw [step, hfind, hfind]
      rcases mem_cons.1 hab with hab | hab
      · cases hab
        simp
      · rw [(hc.connected a b).2 (.rel _ _ hab)]
    | refl => rfl
    | symm _ _ _ ih => exact ih.symm
    | trans _ _ _ _ _ ih ih' => exact ih.trans ih'

theorem sites_step_merge (hc : h.Correct) (hx : h.table.Valid x) (hy : h.table.Valid y)
    (c : ColdId) :
    ((h.step (.merge x y)).table.get c).sites.Perm ((h.step (.merge x y)).sites c) := by
  have hfind := (hc.rooted.find_merge hx hy).2
  by_cases hxy : h.table.find x = h.table.find y
  · simpa only [History.sites, step, merge_of_eq hxy] using hc.sites c
  rw [step, hc.rooted.get_merge hx hy hxy, History.sites]
  simp only [hfind]
  by_cases hcx : c = h.table.find x
  · rw [if_pos hcx, hcx]
    refine ((hc.sites _).append (hc.sites _)).trans ?_
    rw [History.sites, History.sites, ← map_append]
    refine ((filter_append_perm_or fun d _ hd => ?_).trans
      (.of_eq (filter_congr fun d _ => ?_))).map _
    · simp only [decide_eq_true_eq] at hd
      exact hxy (hd.1.symm.trans hd.2)
    · by_cases hd : h.table.find d.1 = h.table.find y <;> simp [hd]
  · rw [if_neg hcx]
    by_cases hcy : c = h.table.find y
    · have hnone : h.born.filter
          (fun d => (if h.table.find d.1 = h.table.find y then h.table.find x
            else h.table.find d.1) = c) = [] := by
        refine filter_eq_nil_iff.2 fun d _ hd => ?_
        rw [decide_eq_true_eq] at hd
        split at hd
        · exact hcx hd.symm
        · rename_i hne
          exact hne (hd.trans hcy)
      rw [if_pos hcy, hnone]
      exact .nil
    · rw [if_neg hcy]
      refine (hc.sites c).trans (.of_eq (congrArg _ (filter_congr fun d _ => ?_)))
      by_cases hd : h.table.find d.1 = h.table.find y
      · simp [hd, Ne.symm hcx, Ne.symm hcy]
      · simp [hd]

theorem correct_step_create (hc : h.Correct) (l : LambdaId) : (h.step (.create l)).Correct := by
  obtain ⟨hrooted, hfind⟩ := hc.rooted.create l
  refine ⟨hrooted, fun c => ?_, fun x y => ?_, fun c => ?_⟩
  · rw [step, map_cons, mem_cons, ← hc.born]
    exact valid_push.trans or_comm
  · rw [step, hfind, hfind]
    exact hc.connected x y
  · have hnew : h.table.find ⟨h.table.size⟩ = ⟨h.table.size⟩ := by
      apply find_of_forward
      rw [get_of_not_valid (not_valid_size _)]
      rfl
    have hsites := hc.sites c
    rw [step, get_create, History.sites]
    simp only [hfind]
    by_cases hcn : c = ⟨h.table.size⟩
    · subst hcn
      rw [get_of_not_valid (not_valid_size _)] at hsites
      have hfirst : decide (h.table.find (h.table.create l).1 = ⟨h.table.size⟩) = true :=
        decide_eq_true hnew
      rw [if_pos rfl, filter_cons, if_pos hfirst]
      exact hsites.cons l
    · rw [if_neg hcn, filter_cons_of_neg]
      · exact hsites
      · intro hd
        exact hcn ((of_decide_eq_true hd).symm.trans hnew)

theorem Correct.step (hc : h.Correct) {op : Op} (hop : ∀ c ∈ op.ids, h.table.Valid c) :
    (h.step op).Correct := by
  cases op with
  | create l => exact correct_step_create hc l
  | find => exact hc
  | merge x y =>
    have hx := hop x mem_cons_self
    have hy := hop y (mem_cons_of_mem _ mem_cons_self)
    refine ⟨(hc.rooted.find_merge hx hy).1, fun c => ?_, connected_step_merge hc hx hy,
      sites_step_merge hc hx hy⟩
    rw [History.step, ← hc.born c, Valid, size_merge, Valid]
  | write c signature fixing =>
    let f : Cold → Cold := fun d => { d with signature, fixing }
    have hf : ∀ d, (f d).forward = d.forward := fun _ => rfl
    have hsites : ∀ d, (f d).sites = d.sites := fun _ => rfl
    have hfind := find_update (t := h.table) hf c
    refine ⟨hc.rooted.update hf c, fun d => valid_modify.trans (hc.born d), fun x y =>
      ?_, fun d => ?_⟩
    · rw [History.step, hfind, hfind]
      exact hc.connected x y
    · have hsame : (h.step (.write c signature fixing)).sites d = h.sites d := by
        simp only [History.sites]
        exact congrArg _ (filter_congr fun b _ => by rw [History.step, hfind])
      have hget : ((h.table.update c f).get d).sites = (h.table.get d).sites :=
        get_modify_eq Cold.sites hsites d
      rw [hsame, History.step, hget]
      exact hc.sites d

theorem Reached.correct (hr : h.Reached) : h.Correct := by
  induction hr with
  | start =>
    refine ⟨⟨fun c => ⟨0, c, .root rfl⟩, nofun⟩, fun c => ?_, fun x y =>
      ⟨fun hxy => ?_, fun hxy => ?_⟩, fun _ => .nil⟩
    · simp [Valid, size]
    · cases (show x = y from hxy)
      exact .refl x
    · induction hxy with
      | rel _ _ hab => cases hab
      | refl => rfl
      | symm _ _ _ ih => exact ih.symm
      | trans _ _ _ _ _ ih ih' => exact ih.trans ih'
  | step op _ hop ih => exact ih.step hop

theorem Correct.sites_eq_nil (hc : h.Correct) (hne : h.table.find c ≠ c) :
    (h.table.get c).sites = [] := by
  have hnone : h.sites c = [] := by
    rw [History.sites, filter_eq_nil_iff.2, map_nil]
    intro d _ hd
    rw [decide_eq_true_eq] at hd
    rw [← hd, hc.rooted.find_find] at hne
    exact hne rfl
  exact perm_nil.1 (hnone ▸ hc.sites c)

theorem Correct.perm_born (hc : h.Correct) :
    ((h.table.ids.filter fun c => h.table.find c = c).flatMap fun c => (h.table.get c).sites).Perm
      (h.born.map Prod.snd) := by
  refine (Perm.flatMap_left _ fun c _ => hc.sites c).trans ?_
  have hall := flatMap_filter_perm (l := h.born) (fun d => h.table.find d.1)
    ((nodup_ids h.table).filter fun c => h.table.find c = c) fun d hd =>
    mem_filter.2 ⟨mem_ids.2 (hc.rooted.valid_find ((hc.born d.1).2 (mem_map_of_mem hd))),
      decide_eq_true (hc.rooted.find_find d.1)⟩
  have hsites : h.sites = fun c => (h.born.filter (h.table.find ·.1 = c)).map Prod.snd := rfl
  rw [hsites, ← map_flatMap]
  exact hall.map Prod.snd

theorem Correct.merge_spec (hc : h.Correct) (hx : h.table.Valid x) (hy : h.table.Valid y) :
    (h.table.merge x y).1 = h.table.find x ∧
      (∀ c, h.Connected c x ∨ h.Connected c y → (h.table.merge x y).2.find c = h.table.find x) ∧
      ∀ c, ¬ h.Connected c x → ¬ h.Connected c y → (h.table.merge x y).2.find c = h.table.find c ∧
        (h.table.merge x y).2.lookup c = h.table.lookup c := by
  have hfind := (hc.rooted.find_merge hx hy).2
  refine ⟨fst_merge h.table x y, fun c hcxy => ?_, fun c hcx hcy => ?_⟩
  · rw [hfind]
    split
    · rfl
    · rename_i hne
      exact (hc.connected c x).2 (hcxy.resolve_right fun hcy => hne ((hc.connected c y).2 hcy))
  · rw [← hc.connected] at hcx hcy
    have hsame := (hfind c).trans (if_neg hcy)
    refine ⟨hsame, ?_⟩
    by_cases hxy : h.table.find x = h.table.find y
    · rw [merge_of_eq hxy]
    · rw [lookup, hsame, hc.rooted.get_merge hx hy hxy, if_neg hcx, if_neg hcy, lookup]

end History

/-- Placeholders are kept in a union-find structure, whatever was created, merged, looked up and
written before. -/
theorem History.union_find {h : History} (hr : h.Reached) :
    (∀ c, (∃ n, h.table.Leads n c (h.table.find c)) ∧
      h.table.find (h.table.find c) = h.table.find c ∧
      (h.table.Valid c → h.table.Valid (h.table.find c))) ∧
    (∀ x y, h.table.find x = h.table.find y ↔ h.Connected x y) ∧
    (∀ x y, h.table.Valid x → h.table.Valid y → (h.table.merge x y).1 = h.table.find x ∧
      (∀ c, h.Connected c x ∨ h.Connected c y → (h.table.merge x y).2.find c = h.table.find x) ∧
      ∀ c, ¬ h.Connected c x → ¬ h.Connected c y →
        (h.table.merge x y).2.find c = h.table.find c ∧
        (h.table.merge x y).2.lookup c = h.table.lookup c) ∧
    ((h.table.ids.filter fun c => h.table.find c = c).flatMap fun c =>
      (h.table.get c).sites).Perm (h.born.map Prod.snd) ∧
    (∀ c, h.table.find c = c → (h.table.get c).sites.Perm (h.sites c)) ∧
    ∀ c, h.table.find c ≠ c → (h.table.get c).sites = [] := by
  have hc := hr.correct
  exact ⟨fun c => ⟨hc.rooted.leads_find c, hc.rooted.find_find c, hc.rooted.valid_find⟩,
    hc.connected, fun x y hx hy => hc.merge_spec hx hy, hc.perm_born, fun c _ => hc.sites c,
    fun c => hc.sites_eq_nil⟩

/-- Three placeholders, two of them merged twice. -/
theorem History.union_find_twice :
    let h : History := [Op.create ⟨7⟩, .create ⟨8⟩, .create ⟨7⟩, .merge ⟨2⟩ ⟨0⟩,
      .write ⟨0⟩ none true, .merge ⟨0⟩ ⟨2⟩].foldl step {}
    h.Reached ∧ h.born = [(⟨2⟩, ⟨7⟩), (⟨1⟩, ⟨8⟩), (⟨0⟩, ⟨7⟩)] ∧ h.table.find ⟨0⟩ = ⟨2⟩ ∧
      (h.table.get ⟨2⟩).sites.Perm (h.sites ⟨2⟩) ∧ (h.table.get ⟨0⟩).sites = [] := by
  have hr : History.Reached _ :=
    .step (.merge ⟨0⟩ ⟨2⟩)
    (.step (.write ⟨0⟩ none true)
      (.step (.merge ⟨2⟩ ⟨0⟩)
        (.step (.create ⟨7⟩) (.step (.create ⟨8⟩) (.step (.create ⟨7⟩) .start (by decide))
          (by decide)) (by decide)) (by decide)) (by decide)) (by decide)
  obtain ⟨_, _, _, _, hsites, hnone⟩ := union_find hr
  exact ⟨hr, by decide, by decide, hsites ⟨2⟩ (by decide), hnone ⟨0⟩ (by decide)⟩

end ClassLang.ColdTable

import ClassLang.Proofs.Typing.Sound.Basic

namespace ClassLang.Program

open Arena

variable {p0 p q : Program} {G : Atlas} {g : Region} {i : NodeId} {t : TypeId}

theorem Tidy.congr (h : p.Tidy) (hq : p.Alike q) (htypes : q.types = p.types)
    (hinsts : q.insts = p.insts) (hcolds : p.colds.size ≤ q.colds.size) : q.Tidy where
  tables := h.tables.congr htypes hinsts hcolds
  instances := by
    refine ⟨fun i hi => ?_⟩
    rw [hinsts] at hi ⊢
    have hformed := h.instances.formed i hi
    unfold Formed at hformed ⊢
    rw [hq.params]
    split at hformed
    · rw [hq.classParams, Valid, hq.classesSize]
      exact hformed
    · exact hformed
  lasting := htypes ▸ h.lasting
  bases := Under.bases ⟨hq, hinsts ▸ .refl _⟩ h.bases
  params c k x := by
    rw [hq.params, hq.classParams]
    exact h.params c k x
  bounds x c := by
    rw [hq.params, hq.classParams, Valid, hq.classesSize]
    exact h.bounds x c

theorem Neat.congr (h : p.Neat) (hq : p.Alike q) (htypes : q.types = p.types)
    (hinsts : q.insts = p.insts) (hcolds : p.colds.size ≤ q.colds.size) : q.Neat :=
  ⟨h.toTidy.congr hq htypes hinsts hcolds, htypes ▸ h.flat⟩

section

variable (h : p0.Sound G p) (hG : p0.Charted G) (hp : p.Coherent)
include h hG hp

theorem Sound.beside (hk : p.Keeps q) (hneat : q.Neat) (hnodes : q.nodes = p.nodes)
    (hvars : q.vars = p.vars) (hcolds : q.colds = p.colds) (hlambdas : q.lambdas = p.lambdas)
    (hmethods : ∀ m, (q.methods.get m).slot = (p.methods.get m).slot)
    (hfunctions : ∀ f, (q.functions.get f).slot = (p.functions.get f).slot)
    (hmethodBodies : ∀ m, (q.methods.get m).body = (p.methods.get m).body ∨
      Option.Rel (p0.Passed q) (p0.methods.get m).body (q.methods.get m).body)
    (hfunctionBodies : ∀ f, (q.functions.get f).body = (p.functions.get f).body ∨
      Option.Rel (p0.Passed q) (p0.functions.get f).body (q.functions.get f).body) :
    p0.Sound G q := by
  have hslot (j : NodeId) : q.slot j = p.slot j := by rw [slot, hnodes, slot]
  have hform (j : NodeId) : q.form j = p.form j := by rw [form, hnodes, form]
  exact h.advance hk hp hneat hG.valid
    { empty := fun j he => (hslot j).symm.trans he
      forms := fun j _ => hform j
      nodes := fun j hj => .inl ⟨hnodes ▸ hj, by rw [loc, hnodes, loc]⟩
      lasts := ⟨hk.alike.role, fun v _ t _ hv => hvars ▸ hv, fun m t hm => (hmethods m).trans hm,
        fun f t hf => (hfunctions f).trans hf⟩
      finished := fun g j _ => .inl ∘ Exists.imp fun t ht => (hslot j).symm.trans ht
      fields := fun v _ t _ hv => .inl (hvars ▸ hv)
      quiet := fun j _ _ => hslot j
      placed := fun l c hc => .inl (hlambdas ▸ hc)
      methods := fun m t hm => .inl (hmethods m ▸ hm)
      functions := fun f t hf => .inl (hfunctions f ▸ hf)
      methodBodies := hmethodBodies
      functionBodies := hfunctionBodies
      tame :=
        { nodes := fun g j t _ hj => .inl ((hslot j).symm.trans hj)
          vars := fun g v t _ hv => .inl (hvars ▸ hv)
          methods := fun c m t _ hm => .inl (hmethods m ▸ hm)
          functions := fun f t _ hf => .inl (hfunctions f ▸ hf)
          sites := fun r => .inl (by rw [hcolds])
          signatures := fun r t hr l hl => .inl ⟨hcolds ▸ hr, hcolds ▸ hl⟩
          weak := fun g x y t _ hx _ ht =>
            .inl ⟨(hform x).symm.trans hx, (hslot x).symm.trans ht⟩ } }

theorem Sound.renew (hk : p.Keeps q) (htypes : q.types = p.types) (hinsts : q.insts = p.insts)
    (hnew : Sound.New p0 G p q) : p0.Sound G q :=
  h.advance hk hp (h.neat.congr hk.alike htypes hinsts hk.colds) hG.valid hnew

theorem Sound.adds (ha : p.Adds q) (ht : q.Neat) : p0.Sound G q := by
  have hmethods : q.methods = p.methods := (congrArg Program.methods ha.rest :)
  have hfunctions : q.functions = p.functions := (congrArg Program.functions ha.rest :)
  exact h.beside hG hp (ha.keeps hp) ht (congrArg Program.nodes ha.rest :)
    (congrArg Program.vars ha.rest :) (congrArg Program.colds ha.rest :)
    (congrArg Program.lambdas ha.rest :) (fun _ => by rw [hmethods]) (fun _ => by rw [hfunctions])
    (fun _ => .inl (by rw [hmethods])) fun _ => .inl (by rw [hfunctions])

end

section Nodes

variable (h : p0.Sound G p) (hG : p0.Charted G) (hp : p.Coherent)
include h hG hp

theorem Sound.begin (hi : G g i) (hempty : p.slot i = .empty) :
    p0.Sound G (p.setSlot i .inProgress) := by
  have hk : p.Keeps (p.setSlot i .inProgress) := keeps_setSlot hp fun u hu =>
    nomatch hempty.symm.trans hu
  have hform := form_setSlot p i .inProgress
  have hslot := slot_setSlot p i .inProgress
  have hfixed (j : NodeId) (t : TypeId) (hj : (p.setSlot i .inProgress).slot j = .fixed t) :
      p.slot j = .fixed t := by
    rw [hslot] at hj
    split at hj
    · cases hj
    · exact hj
  refine h.renew hG hp hk rfl rfl
    { Sound.New.refl p0 G _ with
      lasts := { Lasts.refl p with }
      empty := fun j he => ?_
      forms := fun j _ => hform j
      nodes := fun j hj => .inl ⟨valid_modify.1 hj, get_modify_eq Node.loc (fun _ => by rfl) j⟩
      finished := fun g j _ ⟨t, ht⟩ => .inl ⟨t, hfixed j t ht⟩
      quiet := fun j _ hout => ?_
      tame :=
        { Tame.New.refl p0 G _ with
          nodes := fun g j t _ hj => .inl (hfixed j t hj)
          weak := fun g x y t _ hx _ ht => .inl ⟨(hform x).symm.trans hx, hfixed x t ht⟩ } }
  · rw [hslot] at he
    split at he
    · cases he
    · exact he
  · rw [hslot, if_neg]
    rintro ⟨rfl, _⟩
    exact hout g hi

theorem Sound.fixSlot (hn : ¬ p.Known i) (hregion : p0.nodes.Valid i → ∃ g, G g i)
    (hdone : ∀ g, G g i → p0.Finished (p.setSlot i (.fixed t)) g.owner i)
    (ht : ∀ g, G g i → p0.Says G p g t)
    (hweak : ∀ g y, ¬ p0.nodes.Valid i → p.form i = .toWeak y → G g y → p0.Says G p g t) :
    p0.Sound G (p.setSlot i (.fixed t)) := by
  have hk : p.Keeps (p.setSlot i (.fixed t)) := keeps_setSlot hp fun u hu => absurd ⟨u, hu⟩ hn
  have hform := form_setSlot p i (.fixed t)
  have hslot := slot_setSlot p i (.fixed t)
  have hfixed (j : NodeId) (u : TypeId) (hj : (p.setSlot i (.fixed t)).slot j = .fixed u) :
      p.slot j = .fixed u ∨ j = i ∧ u = t := by
    rw [hslot] at hj
    split at hj
    · rename_i hij
      exact .inr ⟨hij.1.symm, (Slot.fixed.inj hj).symm⟩
    · exact .inl hj
  have hempty (j : NodeId) (he : (p.setSlot i (.fixed t)).slot j = .empty) : p.slot j = .empty := by
    rw [hslot] at he
    split at he
    · cases he
    · exact he
  refine h.renew hG hp hk rfl rfl
    { Sound.New.refl p0 G _ with
      lasts := { Lasts.refl p with }
      empty := hempty
      forms := fun j _ => hform j
      nodes := fun j hj => .inl ⟨valid_modify.1 hj, get_modify_eq Node.loc (fun _ => by rfl) j⟩
      finished := fun g j hj hknown => ?_
      quiet := fun j hj hout => ?_
      tame := { Tame.New.refl p0 G _ with
        nodes := fun g j u hj hu => ?_
        weak := fun g x y u hx hform' hy hu => ?_ } }
  · obtain ⟨u, hu⟩ := hknown
    rcases hfixed j u hu with hu | ⟨rfl, _⟩
    · exact .inl ⟨u, hu⟩
    · exact .inr (hdone g hj)
  · rw [hslot, if_neg]
    rintro ⟨rfl, _⟩
    obtain ⟨g, hg⟩ := hregion hj
    exact hout g hg
  · rcases hfixed j u hu with hu | ⟨rfl, rfl⟩
    · exact .inl hu
    · exact .inr ((ht g hj).keeps hk hp)
  · rw [hform] at hform'
    rcases hfixed x u hu with hu | ⟨rfl, rfl⟩
    · exact .inl ⟨hform', hu⟩
    · exact .inr ((hweak g y hx hform' hy).keeps hk hp)

theorem Sound.addWeak {value : NodeId} {loc : Location} (hvalue : p0.nodes.Valid value)
    (hloc : p0.Spot loc) : p0.Sound G (p.addWeak value loc) := by
  have hk := keeps_addWeak hp value loc
  have hslot := slot_addWeak p value loc
  refine h.renew hG hp hk rfl rfl
    { Sound.New.refl p0 G _ with
      lasts := { Lasts.refl p with }
      empty := fun j he => (hslot j).symm.trans he
      forms := fun j hj => form_addWeak_of_valid hj
      nodes := fun j hj => ?_
      finished := fun g j _ ⟨t, ht⟩ => .inl ⟨t, (hslot j).symm.trans ht⟩
      quiet := fun j _ _ => hslot j
      tame :=
        { Tame.New.refl p0 G _ with
          nodes := fun g j t _ hj => .inl ((hslot j).symm.trans hj)
          weak := fun g x y t _ hx _ ht => .inl ?_ } }
  · have hget : (p.addWeak value loc).loc j = if j = ⟨p.nodes.size⟩ then loc else p.loc j := by
      simp only [Program.loc, Program.addWeak, Write.apply, get_push]
      split <;> rfl
    by_cases hnew : j = ⟨p.nodes.size⟩
    · rw [hget, form_addWeak, if_pos hnew, if_pos hnew]
      exact .inr ⟨hloc, value, hvalue, rfl⟩
    · exact .inl ⟨(valid_push.1 hj).resolve_right hnew, hget.trans (if_neg hnew)⟩
  · rw [hslot] at ht
    rw [form_addWeak_of_valid (valid_of_known ⟨t, ht⟩)] at hx
    exact ⟨hx, ht⟩

omit hG in
theorem Sound.setForm {form : Form} (hi : p0.nodes.Valid i) (hbegun : p.slot i = .inProgress)
    (h0 : Typing.isReform (p0.form i)) (hre : Typing.isReform form)
    (hname : ∀ base name, form ≠ .getField base name none) (hgrown : p0.Regrown p i form) :
    p0.Sound G (p.setForm i form) := by
  have hnot : ¬ p.Known i := fun ⟨t, ht⟩ => nomatch hbegun.symm.trans ht
  have hk := keeps_setForm hp hnot form
  have hslot := slot_setForm p i form
  have hform := form_setForm p i form
  have hother (j : NodeId) (hj : j ≠ i) : (p.setForm i form).form j = p.form j := by
    rw [hform, if_neg fun he => hj he.1.symm]
  have hself : (p.setForm i form).form i = form := by rw [hform, if_pos ⟨rfl, h.nodes i hi⟩]
  refine
    { neat := h.neat.congr hk.alike rfl rfl (Nat.le_refl _)
      nodes := fun j hj => hk.valid (h.nodes j hj)
      grows := h.grows
      fresh := fun j hj he => ?_
      forms := fun g j hj => ?_
      finished := fun g j hj hknown => ?_
      fields := h.fields
      quiet := fun j hj hout => (hslot j).trans (h.quiet j hj hout)
      placed := fun l c hc => ?_
      methods := h.methods
      functions := h.functions
      spots := fun j hj => ?_
      wraps := fun j hj => ?_
      methodBodies := fun m => passed_keeps hk (h.methodBodies m)
      functionBodies := fun f => passed_keeps hk (h.functionBodies f)
      tame := ?_ }
  · rw [hslot] at he
    rw [hother j]
    · exact h.fresh j hj he
    · rintro rfl
      cases hbegun.symm.trans he
  · by_cases hij : j = i
    · subst hij
      refine .other h0 ?_ ?_ ?_ <;> rw [hself]
      · exact hre
      · exact hname
      · exact hgrown.keeps hk
    · exact (h.forms g j hj).keeps hk (hother j hij)
  · rw [Known, hslot] at hknown
    refine (h.finished g j hj hknown).keeps hk hp hknown
      ⟨fun _ => rfl, fun _ _ _ _ => id, fun _ _ => id, fun _ _ => id⟩ fun k he => ?_
    exact (hslot k).symm.trans he
  · obtain ⟨e, he⟩ := h.placed l c hc
    exact ⟨e, he.keeps hk⟩
  · rw [loc, Program.setForm, get_modify_eq Node.loc fun _ => by rfl]
    exact h.spots j (valid_modify.1 hj)
  · by_cases hij : j = i
    · exact .inl (hij ▸ hi)
    · rw [hother j hij]
      exact h.wraps j (valid_modify.1 hj)
  · refine h.tame.advance hk hp
      { Tame.New.refl p0 G _ with
        nodes := fun g j t _ hj => .inl ((hslot j).symm.trans hj)
        weak := fun g x y t hx hform' _ ht => .inl ⟨?_, (hslot x).symm.trans ht⟩ }
    rw [← hother x]
    · exact hform'
    · rintro rfl
      exact hx hi

end Nodes

section Declarations

variable {v : VarId} {slot : Slot} {m : MethodId} {d : FunctionId}

variable (h : p0.Sound G p) (hG : p0.Charted G) (hp : p.Coherent)
include h hG hp

theorem Sound.setVar (hknown : p.VarKnown v → ∃ t, slot = .fixed t)
    (hfield : ∀ c t, (p.vars.get v).role = .field c → (p.vars.get v).slot = .fixed t →
      slot = .fixed t)
    (hlast : ∀ c t, (p0.vars.get v).role = .field c → slot = .fixed t →
      TypeTable.isTemporary p.types t = false)
    (ht : ∀ t, slot = .fixed t → ∀ g, p0.Home G g v → p0.Says G p g t) :
    p0.Sound G (p.setVarSlot v slot) := by
  have hk := keeps_setVarSlot hp hknown
  refine h.renew hG hp hk rfl rfl
    { Sound.New.refl p0 G _ with
      lasts := (Typing.stays_setVarSlot (f := {}) hfield).toLasts
      fields := fun u c t hrole hu => ?_
      tame := { Tame.New.refl p0 G _ with vars := fun g u t hu hslot => ?_ } }
  · rw [slot_setVarSlot] at hu
    split at hu
    · rename_i huv
      obtain ⟨rfl, _⟩ := huv
      exact .inr (hlast c t hrole hu)
    · exact .inl hu
  · rw [slot_setVarSlot] at hslot
    split at hslot
    · rename_i huv
      obtain ⟨rfl, _⟩ := huv
      exact .inr ((ht t hslot g hu).keeps hk hp)
    · exact .inl hslot

theorem Sound.setMethod (hold : ∀ u, (p.methods.get m).slot = .fixed u → t = u)
    (hget : ∃ params result, p.types.get t = .function params result)
    (ht : ∀ c, m ∈ (p0.classes.get c).allMethods → p0.Says G p ⟨some c, true⟩ t) :
    p0.Sound G (p.fixMethod m t) := by
  have hk : p.Keeps (p.fixMethod m t) := keeps_fixMethod hp
  have hslot (n : MethodId) (u : TypeId) (hn : ((p.fixMethod m t).methods.get n).slot = .fixed u) :
      (p.methods.get n).slot = .fixed u ∨ n = m ∧ u = t := by
    rw [fixMethod, modifyMethod, get_modify] at hn
    split at hn
    · rename_i hmn
      exact .inr ⟨hmn.1.symm, (Slot.fixed.inj hn).symm⟩
    · exact .inl hn
  refine h.renew hG hp hk rfl rfl
    { Sound.New.refl p0 G _ with
      lasts := (Typing.stays_setMethod (f := {}) hold).toLasts
      methods := fun n u hn => ?_
      methodBodies := fun n => .inl (get_modify_eq Method.body (fun _ => by rfl) n)
      tame := { Tame.New.refl p0 G _ with methods := fun c n u hn hu => ?_ } }
  · rcases hslot n u hn with hn | ⟨_, rfl⟩
    · exact .inl hn
    · exact .inr hget
  · rcases hslot n u hu with hu | ⟨rfl, rfl⟩
    · exact .inl hu
    · exact .inr ((ht c hn).keeps hk hp)

theorem Sound.setFunction (hold : ∀ u, (p.functions.get d).slot = .fixed u → t = u)
    (hget : ∃ params result, p.types.get t = .function params result)
    (ht : ¬ p0.IsEntry d → p0.Says G p ⟨none, true⟩ t) : p0.Sound G (p.fixFunction d t) := by
  have hk : p.Keeps (p.fixFunction d t) := keeps_fixFunction hp
  have hslot (f : FunctionId) (u : TypeId)
      (hf : ((p.fixFunction d t).functions.get f).slot = .fixed u) : (p.functions.get f).slot =
      .fixed u ∨ f = d ∧ u = t := by
    rw [fixFunction, modifyFunction, get_modify] at hf
    split at hf
    · rename_i hdf
      exact .inr ⟨hdf.1.symm, (Slot.fixed.inj hf).symm⟩
    · exact .inl hf
  refine h.renew hG hp hk rfl rfl
    { Sound.New.refl p0 G _ with
      lasts := (Typing.stays_setFunction (f := {}) hold).toLasts
      functions := fun f u hf => ?_
      functionBodies := fun n => .inl (get_modify_eq Function.body (fun _ => by rfl) n)
      tame := { Tame.New.refl p0 G _ with functions := fun f u hf hu => ?_ } }
  · rcases hslot f u hf with hf | ⟨_, rfl⟩
    · exact .inl hf
    · exact .inr hget
  · rcases hslot f u hu with hu | ⟨rfl, rfl⟩
    · exact .inl hu
    · exact .inr ((ht hf).keeps hk hp)

end Declarations

section Placeholders

variable (h : p0.Sound G p) (hG : p0.Charted G) (hp : p.Coherent) {l : LambdaId} {x y : ColdId}
include h hG hp

theorem Sound.place {e : Setting} (hv : p.lambdas.Valid l) (hl : (p.lambdas.get l).cold = none)
    (he : p0.Awaits G p e l) : p0.Sound G ((Write.place l).apply p) := by
  obtain ⟨hk, _⟩ := coherent_place hp hv hl
  have hcold := cold_place hv
  have hget (c : ColdId) : ((Write.place l).apply p).colds.get c = if c = ⟨p.colds.size⟩
    then { sites := [l] } else p.colds.get c := ColdTable.get_create p.colds l c
  refine h.renew hG hp hk rfl rfl
    { Sound.New.refl p0 G _ with
      lasts := { Lasts.refl p with }
      placed := fun l' c hc => ?_
      tame := { Tame.New.refl p0 G _ with
        sites := fun r => ?_
        signatures := fun r t hr l' hl' => ?_ } }
  · rw [hcold] at hc
    split at hc
    · rename_i hll
      subst hll
      exact .inr ⟨e, he.keeps hk⟩
    · exact .inl hc
  · rw [hget]
    split
    · refine .inr fun _ l1 h1 l2 h2 => ?_
      rw [List.mem_singleton.1 h1, List.mem_singleton.1 h2]
    · exact .inl rfl
  · rw [hget] at hr hl'
    split at hr
    · cases hr
    · rename_i hne
      rw [if_neg hne] at hl'
      exact .inl ⟨hr, hl'⟩

theorem Sound.merge (hx : p.colds.Valid x) (hy : p.colds.Valid y)
    (hsx : (p.colds.lookup x).signature = none) (hsy : (p.colds.lookup y).signature = none)
    (hmeet : p0.Sealed G ((Write.merge x y).apply p) →
      ∃ a, ∀ l ∈ (p.colds.lookup x).sites ++ (p.colds.lookup y).sites,
      p0.formals (p0.lambdas.get l).owner = a) : p0.Sound G ((Write.merge x y).apply p) := by
  by_cases hxy : p.colds.find x = p.colds.find y
  · have hsame : (Write.merge x y).apply p = p := by
      show { p with colds := (p.colds.merge x y).2 } = p
      rw [ColdTable.merge_of_eq hxy]
    rwa [hsame]
  · obtain ⟨hk, _⟩ := coherent_merge hp hx hy hxy
    have hget : ∀ c, ((Write.merge x y).apply p).colds.get c = _ :=
      hp.colds.rooted.get_merge hx hy hxy
    refine h.renew hG hp hk rfl rfl
      { Sound.New.refl p0 G _ with
        lasts := { Lasts.refl p with }
        tame := { Tame.New.refl p0 G _ with
          sites := fun r => ?_
          signatures := fun r t hr l' hl' => ?_ } }
    · rw [hget]
      split
      · refine .inr fun hsealed l1 h1 l2 h2 => ?_
        obtain ⟨a, ha⟩ := hmeet hsealed
        exact (ha l1 h1).trans (ha l2 h2).symm
      · split
        · exact .inr fun _ => nofun
        · exact .inl rfl
    · rw [hget] at hr hl'
      split at hr
      · cases hsx.symm.trans hr
      · rename_i hrx
        rw [if_neg hrx] at hl'
        split at hr
        · cases hsy.symm.trans hr
        · rename_i hry
          rw [if_neg hry] at hl'
          exact .inl ⟨hr, hl'⟩

theorem Sound.updateCold {u : Cold → Cold} (hf : ∀ z, (u z).forward = z.forward)
    (hs : ∀ z, (u z).sites = z.sites)
    (hsig : ∀ z t, (u z).signature = some t → z.signature = some t ∨ ∀ l ∈ (p.colds.lookup x).sites,
      p0.Says G p ⟨(p0.lambdas.get l).owner, false⟩ t) : p0.Sound G (p.updateCold x u) := by
  have hk : p.Keeps (p.updateCold x u) := keeps_updateCold hp hf x
  have hget := fun r => get_updateCold p x r u
  have hsites (r : ColdId) : ((p.updateCold x u).colds.get r).sites = (p.colds.get r).sites := by
    rw [hget]
    split
    · exact hs _
    · rfl
  refine h.renew hG hp hk rfl rfl
    { Sound.New.refl p0 G _ with
      lasts := { Lasts.refl p with }
      tame := { Tame.New.refl p0 G _ with
        sites := fun r => .inl (hsites r)
        signatures := fun r t hr l' hl' => ?_ } }
  rw [hsites] at hl'
  rw [hget] at hr
  split at hr
  · rename_i hxr
    obtain ⟨rfl, _⟩ := hxr
    rcases hsig _ t hr with hr | hspeaks
    · exact .inl ⟨hr, hl'⟩
    · exact .inr ((hspeaks l' hl').keeps hk hp)
  · exact .inl ⟨hr, hl'⟩

end Placeholders

end ClassLang.Program

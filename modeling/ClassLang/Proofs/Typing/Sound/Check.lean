import ClassLang.Proofs.Typing.Sound.Rule

namespace ClassLang

open Arena List Program TypeTable

namespace Typing

section Start

variable {t : TypeId}

theorem basic_not_cold {cold : ColdId} : TypeTable.basic.get t ≠ .cold cold := by
  intro hc
  by_cases ht : TypeTable.basic.Valid t
  · have h : ∀ t ∈ TypeTable.basic.ids, TypeTable.isCold TypeTable.basic t = false := by decide
    exact nomatch (h t (mem_ids.2 ht)).symm.trans (isCold_of_get hc)
  · rw [get_of_not_valid ht] at hc
    cases hc

variable {p : Program} (hp : p.Shaped) (hu : p.Untyped)
include hp hu

theorem coherent_start : p.Coherent := by
  have hempty (c : ColdId) : p.colds.get c = default := by
    rw [hu.colds]
    rfl
  refine
    { shaped := hp
      ordered := fun i hi => hu.ordered i ?_
      tables := ⟨?_, hp.insts, fun t c hc => ?_⟩
      nodeTypes := fun i t ht => nomatch (hu.nodes i).symm.trans ht
      varTypes := fun v t ht => nomatch (hu.vars v).symm.trans ht
      methodTypes := fun m t ht => nomatch (hu.methods m).symm.trans ht
      functionTypes := fun d t ht => nomatch (hu.functions d).symm.trans ht
      vars := fun v t ht => nomatch (hu.vars v).symm.trans ht
      methods := fun m ⟨t, ht⟩ => nomatch (hu.methods m).symm.trans ht
      functions := fun d ⟨t, ht⟩ => nomatch (hu.functions d).symm.trans ht
      colds := ⟨?_, fun l c hc => ?_, fun r l hl => ?_, fun r => ?_, fun c t ht => ?_,
        fun c hc => ?_⟩ }
  · cases hform : p.form i <;> rw [hform] at hi <;> first | rfl | cases hi
  · rw [hu.types]
    exact basic_sound.mono (Nat.zero_le _)
  · rw [hu.types] at hc
    exact absurd hc basic_not_cold
  · refine ⟨fun c => ⟨0, c, .root (by rw [hempty]; rfl)⟩, fun c d hd => ?_⟩
    rw [hempty] at hd
    cases hd
  · exact nomatch (hu.lambdas l).symm.trans hc
  · rw [hempty] at hl
    cases hl
  · rw [hempty]
    exact nodup_nil
  · rw [hempty] at ht
    cases ht
  · rw [hu.colds] at hc
    cases hc

theorem inv_start : Inv p { program := p } where
  alike := .refl p
  coherent := coherent_start hp hu
  logged := ⟨rfl, trivial, nofun, fun _ _ => trivial⟩
  signed _ r _ _ l hl := by
    rw [hu.colds] at hl
    cases hl
  unhurried _ _ := by
    refine ⟨fun r _ _ _ l hl => ?_, fun l _ v _ _ => ?_, fun r _ hfix => ?_⟩
    · rw [hu.colds] at hl
      cases hl
    · rintro ⟨t, ht⟩
      exact nomatch (hu.vars v).symm.trans ht
    · rw [hu.colds] at hfix
      cases hfix
  fitting _ _ r _ t _ l hl := by
    rw [hu.colds] at hl
    cases hl

end Start

end Typing

namespace Program

variable {p0 p : Program} {G : Atlas}

/-- The value or the declared type of a variable that has a type has one. -/
theorem Coherent.known_init {v : VarId} {d : NodeId} (hp : p.Coherent) (hv : p.VarKnown v)
    (hd : (p.vars.get v).init = some d) : p.Known d := by
  obtain ⟨t, ht⟩ := hv
  have htyped := hp.vars v t ht
  rw [VarTyped, hd] at htyped
  cases hr : (p.vars.get v).role with
  | param =>
    rw [hr] at htyped
    obtain ⟨u, hu, _⟩ := htyped
    exact ⟨u, hu⟩
  | binding => cases hd.symm.trans (hp.shaped.bindings v hr)
  | field owner =>
    rw [hr] at htyped
    exact ⟨t, htyped⟩
  | localVar =>
    rw [hr] at htyped
    exact ⟨t, htyped⟩

section Bodies

variable {b' b : NodeId} (h : p0.Sound G p) (hG : p0.Charted G) (hp : p.Coherent)
include h hG hp

theorem Sound.setMethodBody {m : MethodId} (hb : (p0.methods.get m).body = some b)
    (hb' : p0.Passed p b b') :
    p0.Sound G (p.modifyMethod m fun d => { d with body := some b' }) := by
  have hk : p.Keeps (p.modifyMethod m fun d => { d with body := some b' }) :=
    keeps_modifyMethod hp (fun _ => by rfl) (fun _ t ht => ⟨t, by exact ht⟩) m
  refine h.beside hG hp hk (h.neat.congr hk.alike rfl rfl (Nat.le_refl _)) rfl rfl rfl rfl
    (get_modify_eq Method.slot fun _ => by rfl) (fun _ => rfl) (fun n => ?_) fun _ => .inl rfl
  rw [modifyMethod, get_modify]
  split
  · rename_i hmn
    rw [← hmn.1, hb]
    exact .inr (.some (hb'.keeps hk))
  · exact .inl rfl

theorem Sound.setFunctionBody {f : FunctionId} (hb : (p0.functions.get f).body = some b)
    (hb' : p0.Passed p b b') :
    p0.Sound G (p.modifyFunction f fun d => { d with body := some b' }) := by
  have hk : p.Keeps (p.modifyFunction f fun d => { d with body := some b' }) :=
    keeps_modifyFunction hp (fun _ => by rfl) (fun _ t ht => ⟨t, by exact ht⟩) f
  refine h.beside hG hp hk (h.neat.congr hk.alike rfl rfl (Nat.le_refl _)) rfl rfl rfl rfl
    (fun _ => rfl) (get_modify_eq Function.slot fun _ => by rfl) (fun _ => .inl rfl) fun n => ?_
  rw [modifyFunction, get_modify]
  split
  · rename_i hfn
    rw [← hfn.1, hb]
    exact .inr (.some (hb'.keeps hk))
  · exact .inl rfl

theorem Sound.setDispatch (c : ClassId) (dispatch : List (MethodId × MethodId)) :
    p0.Sound G (p.modifyClass c fun d => { d with dispatch }) := by
  have hk : p.Keeps (p.modifyClass c fun d => { d with dispatch }) :=
    keeps_modifyClass hp (fun _ => by rfl) c
  exact h.beside hG hp hk (h.neat.congr hk.alike rfl rfl (Nat.le_refl _)) rfl rfl rfl rfl
    (fun _ => rfl) (fun _ => rfl) (fun _ => .inl rfl) fun _ => .inl rfl

end Bodies

theorem rel_passed_refl (b : Option NodeId) : Option.Rel (p0.Passed p) b b := by
  cases b with
  | none => exact .none
  | some b => exact .some (.inl rfl)

theorem Wired.sound (hw : p.Wired) : p.Sound G p := by
  have hu := hw.untyped
  have hp := Typing.coherent_start hw.shaped hu
  have hcolds (c : ColdId) : p.colds.get c = default := by
    rw [hu.colds]
    rfl
  exact
    { neat :=
        { tables := hp.tables
          instances := hw.instances
          lasting := hu.types ▸ TypeTable.basic_lasting
          bases := fun c b hb i hi => (hw.bases c b hb i hi).valid
          params := hw.owned.params_iff
          bounds := hw.bounds
          flat := hu.types ▸ TypeTable.basic_flat }
      nodes := fun _ => id
      grows := .refl _
      fresh := fun _ _ _ => rfl
      forms := fun _ _ _ => .same rfl
      finished := fun _ i _ ⟨t, ht⟩ => nomatch (hu.nodes i).symm.trans ht
      fields := fun v _ t _ ht => nomatch (hu.vars v).symm.trans ht
      quiet := fun i _ _ => hu.nodes i
      placed := fun l c hc => nomatch (hu.lambdas l).symm.trans hc
      methods := fun m t ht => nomatch (hu.methods m).symm.trans ht
      functions := fun f t ht => nomatch (hu.functions f).symm.trans ht
      spots := fun i hi _ hK => hK.nodes i hi
      wraps := fun _ => .inl
      methodBodies := fun m => rel_passed_refl _
      functionBodies := fun f => rel_passed_refl _
      tame :=
        { nodes := fun _ i t _ ht => nomatch (hu.nodes i).symm.trans ht
          vars := fun _ v t _ ht => nomatch (hu.vars v).symm.trans ht
          methods := fun _ m t _ ht => nomatch (hu.methods m).symm.trans ht
          functions := fun f t _ ht => nomatch (hu.functions f).symm.trans ht
          sites := fun _ r l hl => by
            rw [hcolds] at hl
            cases hl
          signatures := fun r t ht => by
            rw [hcolds] at ht
            cases ht
          weak := fun _ x _ t _ _ _ ht => nomatch (hu.nodes x).symm.trans ht } }

def Touched (p0 p : Program) (i : NodeId) : Prop :=
  p.Known i ∨ ∃ base name, p0.form i = .getField base name none ∧ ∀ b ∈ base, p.Known b

section Contained

variable {g : Region} {i : NodeId} (hp : p0.Shaped) (hG : p0.Charted G) (h : p0.Sound G p)
  (hdone : ∀ i, p.Known i → p0.nodes.Valid i → p.Done i)
include hG h hdone

/-- What is touched has its parts touched, lambdas apart. -/
theorem Sound.touched {x : NodeId} (hg : G g i) (hi : p0.Touched p i)
    (hx : x ∈ p0.inner (p0.form i)) (hlambda : ∀ l, p0.form i ≠ .lambda l) (hvars : p0.Alike p) :
    p0.Touched p x := by
  rcases hi with hi | ⟨base, name, hform, hbase⟩
  · by_cases hre : Typing.isReform (p0.form i)
    · have hchild : x ∈ (p0.form i).children := by
        cases hform : p0.form i <;> rw [hform] at hx hre <;> first | exact hx | cases hre
      exact (h.finished g i hg hi).covered hre x hchild
    · obtain ⟨t, _, hclosed, _⟩ := hdone i hi (hG.valid g i hg)
      have hsame : p.form i = p0.form i := by
        cases h.forms g i hg with
        | same hsame => exact hsame
        | other h0 _ _ _ => exact absurd h0 hre
      rw [hsame] at hclosed
      unfold inner at hx
      split at hx
      · rename_i v body hform
        rcases mem_append.1 hx with hx | hx
        · exact .inl (hclosed.init v body hform x ((hvars.init v).trans (Option.mem_toList.1 hx)))
        · exact .inl (hclosed.children x (by rw [hform]; exact hx))
      · rename_i l hform
        exact absurd hform (hlambda l)
      · exact .inl (hclosed.children x hx)
  · rw [hform] at hx
    exact .inl (hbase x (Option.mem_toList.1 hx))

include hp

/-- Where a jump leads out to what has no type, nothing before it can have one. -/
theorem Sound.not_escapes (hvars : p0.Alike p) {t : NodeId} {e : Setting} (ht : ∀ g, ¬ G g t)
    (hscoped : p0.Scoped (G g) e i) (hi : p0.Touched p i) : ¬ p0.Escapes t i := by
  intro hesc
  induction hesc generalizing e with
  | @leave i result hform =>
    have hvalid : p0.nodes.Valid t := by
      have hadmits := (hp.forms i).2
      rw [hform] at hadmits
      exact valid_of_isTarget hadmits
    rcases hi with hi | ⟨_, _, hform', _⟩
    · obtain ⟨_, u, _, hu, _⟩ := (h.finished g i hscoped.mem hi).left t result hform
      exact nomatch (h.quiet t hvalid ht).symm.trans hu
    · cases hform.symm.trans hform'
  | @inner i x hx _ hesc ih =>
    have hg := hscoped.mem
    obtain ⟨_, _, hparts⟩ := hscoped
    obtain ⟨d, hd⟩ := exists_place hx e i
    have hlambda (l : LambdaId) (hform : p0.form i = .lambda l) : False := by
      have htarget := (hparts _ hd).target hesc
      rw [hform] at hd
      obtain ⟨y, _, hy⟩ := mem_map.1 hd
      cases hy
      cases htarget
    exact ih (hparts _ hd) (h.touched hG hdone hg hi hx hlambda hvars)

/-- If all fields have types, no jump leads out of one. -/
theorem Sound.contained (hvars : p0.Alike p)
    (hfields : ∀ c, ∀ v ∈ (p0.classes.get c).fields, ∀ d ∈ (p0.vars.get v).init, p.Known d) :
    p0.Contained := by
  intro c v hv d hd t hesc
  obtain ⟨ts, hscoped, hts⟩ := hG.fields c v hv d hd
  have ht := hts t (hscoped.target hesc)
  exact h.not_escapes hp hG hdone hvars ht.1 hscoped (.inl (hfields c v hv d hd)) hesc

end Contained

end Program

namespace Typing

variable {p0 q : Program} {G : Atlas} {n : Nat} {f : Focus} {c : Context} {s s' : PassState}
  {e e' : Engine} {z : Setting} {t : TypeId} {d : ClassId}

/-- A checked body: its value is stored as the result that the type `t` says, or dropped where that
says none. -/
def Settled (p : Program) (t : TypeId) (b : NodeId) : Prop :=
  ∃ params result, p.types.get t = .function params result ∧ p.Known b ∧
    (result = TypeId.void ∨ p.Delivers b result)

def BodySettled (p : Program) (slot : Slot) (body : Option NodeId) : Prop :=
  ∃ t, slot = .fixed t ∧ ∀ b ∈ body, Settled p t b

def Concluded (p : Program) (slot : Slot) (body : Option NodeId) : Prop :=
  ∀ b ∈ body, ∃ t u, slot = .fixed t ∧ p.types.get t = .function [] u ∧ p.slot b = .fixed u

theorem Settled.known {p : Program} {b : NodeId} (h : Settled p t b) : p.Known b := by
  obtain ⟨_, _, _, hknown, _⟩ := h
  exact hknown

theorem Settled.keeps {p : Program} {b : NodeId} (h : Settled p t b) (hk : p.Keeps q)
    (hsig : ∀ c t, (p.colds.lookup c).signature = some t → (q.colds.lookup c).signature = some t) :
    Settled q t b := by
  obtain ⟨params, result, hget, hknown, hresult⟩ := h
  refine ⟨params, result, get_of_grows hk.types hget nofun, hk.known hknown, ?_⟩
  exact hresult.imp_right fun hdelivers => hdelivers.keeps hk hsig

section Settling

variable {slot slot' : Slot} {body body' : Option NodeId} (hst : Step p0 f s s')
  (hslot : ∀ t, slot = .fixed t → slot' = .fixed t) (hbody : body' = body)
include hst hslot hbody

theorem BodySettled.step (h : BodySettled s.program slot body) (hf : f.colds = []) :
    BodySettled s'.program slot' body' := by
  obtain ⟨t, ht, hsettled⟩ := h
  refine ⟨t, hslot t ht, fun b hb => ?_⟩
  rw [hbody] at hb
  exact (hsettled b hb).keeps hst.keeps (hst.signatures hf)

theorem Concluded.step (h : Concluded s.program slot body) : Concluded s'.program slot' body' := by
  intro b hb
  rw [hbody] at hb
  obtain ⟨t, u, ht, hget, hu⟩ := h b hb
  exact ⟨t, u, hslot t ht, get_of_grows hst.keeps.types hget nofun, hst.keeps.slots b u hu⟩

end Settling

structure ClassSettled (p0 p : Program) (d : ClassId) : Prop where
  this : ∃ i, p.IsThis d i
  fields : ∀ v ∈ (p0.classes.get d).fields, p.VarKnown v
  methods : ∀ m ∈ (p0.classes.get d).allMethods, BodySettled p (p.methods.get m).slot
    (p.methods.get m).body

structure FunctionSettled (p0 p : Program) (d : FunctionId) : Prop where
  declared : ¬ p0.IsEntry d → BodySettled p (p.functions.get d).slot (p.functions.get d).body
  entry : p0.IsEntry d → Concluded p (p.functions.get d).slot (p.functions.get d).body

theorem ClassSettled.step (h : ClassSettled p0 s.program d) (hst : Step p0 f s s')
    (hf : f.colds = []) (hx : ∀ m ∈ (p0.classes.get d).allMethods, ¬ f.methods m) :
    ClassSettled p0 s'.program d where
  this := by
    obtain ⟨i, hi⟩ := h.this
    exact ⟨i, hi.grows hst.keeps.insts (hst.keeps.alike.classParams d)⟩
  fields v hv := hst.keeps.vars v (h.fields v hv)
  methods m hm := (h.methods m hm).step hst (hst.stays.methods m)
    (hst.stays.methodBodies m (hx m hm)) hf

theorem FunctionSettled.step {d : FunctionId} (h : FunctionSettled p0 s.program d)
    (hst : Step p0 f s s') (hf : f.colds = []) (hx : ¬ f.functions d) :
    FunctionSettled p0 s'.program d where
  declared hd := (h.declared hd).step hst (hst.stays.functions d) (hst.stays.functionBodies d hx) hf
  entry hd := (h.entry hd).step hst (hst.stays.functions d) (hst.stays.functionBodies d hx)

theorem not_mem_of_nodup {α : Type} {xs done rest : List α} {x : α} (h : xs.Nodup)
    (hxs : xs = done ++ x :: rest) : x ∉ done := by
  rw [hxs, nodup_append] at h
  exact fun hx => h.2.2 x hx x mem_cons_self rfl

section Bodies

variable (he : e.Good p0 G n e') (hs : Ready p0 G c s)
include he hs

theorem checkBody_walks {body : NodeId} {params : List TypeId} {result : TypeId}
    (hat : At p0 G s.program c z) (hbody : p0.ScopedAt G c.chain z body)
    (ht : s.program.types.Valid t) (hget : s.program.types.get t = .function params result)
    (hsaid : p0.Says G s.program ⟨z.owner, true⟩ t) (loc : Location) :
    Walks p0 G n {} c s (checkBody e body t loc) (checkBody e' body t loc) fun b s' =>
      p0.Passed s'.program body b ∧ Settled s'.program t b := by
  have hsig := TypeTable.signature?_of_function hget
  have hpart : p0.Says G s.program ⟨z.owner, true⟩ result :=
    hsaid.part (hget ▸ mem_append_right _ mem_cons_self)
  unfold checkBody
  refine (Walks.signatureOf hs ht hsig _ loc).bind fun sig s1 _ _ ⟨hs1, hsig1, _, hr⟩ => ?_
  subst hs1 hsig1
  refine (he.find hs hat hbody).bind fun u s2 hst2 hs2 ⟨hu, _⟩ => ?_
  have hget2 := get_of_grows hst2.keeps.types hget nofun
  split
  · rename_i hvoid
    exact .pure hs2 ⟨.inl rfl, params, result, hget2, ⟨u, hu⟩, .inl hvoid⟩
  · have hpart2 := hpart.step hs.inv hst2
    refine (coerce_walks he hs2 (hat.step hst2) hbody (hst2.keeps.types.valid hr)
      hpart2.loosen).post fun b s3 hst3 _ ⟨_, htakes, hpassed, hdelivers⟩ =>
      ⟨hpassed, params, result, get_of_grows hst3.keeps.types hget2 nofun, htakes.known,
        .inr (hdelivers ?_)⟩
    -- No placeholder is declared, so that the result has none in it.
    exact (hpart2.step hs2.inv hst3 nofun).plain

theorem checkMethod_walks {m : MethodId} (hat : At p0 G s.program c ⟨⟨some d, []⟩, []⟩)
    (hm : m ∈ (p0.classes.get d).allMethods)
    (hbody : (s.program.methods.get m).body = (p0.methods.get m).body) :
    Walks p0 G n { methods := (· = m) } c s (checkMethod e m) (checkMethod e' m) fun _ s' =>
      BodySettled s'.program (s'.program.methods.get m).slot (s'.program.methods.get m).body := by
  unfold checkMethod
  refine .program ((methodType_walks hs _ hm).bind fun t s1 hst1 hs1 ⟨hslot, hsaid⟩ => .program ?_)
  rw [hst1.stays.methodBodies m id, hbody]
  split
  · rename_i body hb
    have hw := hs.charted.methods d m hm
    have hspelled := hs1.coherent.methods m ⟨t, hslot⟩
    rw [hs1.alike.methodParams] at hspelled
    have hat1 : At p0 G s1.program c ⟨⟨some d, []⟩, (p0.methods.get m).params⟩ := by
      refine (hat.step hst1).enter rfl (fun v hv => ⟨hspelled.params v hv, true, ?_⟩) nofun
      obtain ⟨i, hi⟩ := Option.isSome_iff_exists.1 ((hs.wired.shaped.methods m).params v hv).2
      exact .init hi (hw.params v hv i hi).mem
    obtain ⟨ps, r, hget⟩ := hs1.sound.methods m t hslot
    have hopens : p0.Opens [] body :=
      .start (r := .method m) (mem_append_right _ (Option.mem_toList.2 hb))
    refine (checkBody_walks he hs1 hat1 ⟨hs.charted.bodies d m hm body hb, hat.starts hopens⟩
      (hs1.coherent.methodTypes m t hslot) hget hsaid _).bind
      fun b s2 hst2 hs2 ⟨hpassed, hsettled⟩ => ?_
    have hvalid : s2.program.methods.Valid m :=
      hs2.alike.methodsValid.2 (valid_of_get_ne fun he => by rw [he] at hb; cases hb)
    have hwritten : (s2.program.methods.get m).body = some body := by
      rw [hst2.stays.methodBodies m id, hst1.stays.methodBodies m id, hbody, hb]
    refine (Walks.edit hs2 (.setMethodBody hs2.inv hsettled.known ⟨body, hwritten⟩ rfl)
      (hs2.sound.setMethodBody hs.charted hs2.coherent hb hpassed)).post fun _ s3 hst3 _ hs3 => ?_
    refine ⟨t, hst3.stays.methods m t (hst2.stays.methods m t hslot), fun b' hb' => ?_⟩
    rw [hs3, Program.modifyMethod, get_modify_self hvalid] at hb'
    cases hb'
    exact hsettled.keeps hst3.keeps (hst3.signatures rfl)
  · rename_i hnone
    refine .pure hs1 ⟨t, hslot, fun b hb => ?_⟩
    rw [hst1.stays.methodBodies m id, hbody] at hb
    exact absurd hb (hnone b)

theorem checkClass_walks (hc : p0.classes.Valid d)
    (hbodies : ∀ m ∈ (p0.classes.get d).allMethods, (s.program.methods.get m).body =
      (p0.methods.get m).body) :
    Walks p0 G n { methods := (· ∈ (p0.classes.get d).allMethods) } c s (checkClass e d)
      (checkClass e' d) fun _ s' => ClassSettled p0 s'.program d := by
  unfold checkClass
  refine within_walks hs (fun _ h => Option.some.inj h ▸ hc) fun c' s1 hst1 hs1 hat1 => .program ?_
  dsimp only
  rw [hs1.alike.fields, hs1.alike.allMethods]
  refine (Walks.forM (f := {}) (P := fun v s => s.program.VarKnown v) hs1
    (fun v _ _ _ h => h.keeps.vars v) fun v hv s2 _ hs2 =>
    .discard ((fieldVar_walks hs2 he hv _).post fun t _ _ _ h => ⟨t, h.1⟩)).bind
    fun _ s2 hst2 hs2 hfields => ?_
  -- Each method is checked with the body it was written with.
  refine (Walks.forEach (I := fun done s' =>
    (∀ m ∈ (p0.classes.get d).allMethods, m ∉ done →
      (s'.program.methods.get m).body = (p0.methods.get m).body) ∧
    ∀ m ∈ done, BodySettled s'.program (s'.program.methods.get m).slot
    (s'.program.methods.get m).body) hs2 ⟨fun m hm _ => ?_, forall_mem_nil _⟩
    fun done m rest s3 hms hst3 hs3 ⟨hwait, hdone⟩ => ?_).post fun _ s3 hst3 _ ⟨_, hdone⟩ =>
    ⟨?_, fun v hv => hst3.keeps.vars v (hfields v hv), hdone⟩
  · exact ((hst1.trans hst2).stays.methodBodies m id).trans (hbodies m hm)
  · have hm : m ∈ (p0.classes.get d).allMethods := by simp [hms]
    have hnew := not_mem_of_nodup (hs.wired.owned.distinctMethods d) hms
    have hat3 : At p0 G s3.program c' ⟨⟨some d, []⟩, []⟩ := (hat1.step hst2).step hst3
    refine (checkMethod_walks he hs3 hat3 hm (hwait m hm hnew)).imp fun _ s4 hst4 _ hsettled =>
      ⟨hst4.mono nofun nofun (fun _ _ _ => nofun) nofun (fun _ => id) (fun _ h => h ▸ hm) fun _ =>
        id, fun m' hm' hn => ?_,
        forall_mem_append.2 ⟨fun m' hm' => ?_, forall_mem_singleton.2 hsettled⟩⟩
    · rw [mem_append, not_or, mem_singleton] at hn
      exact (hst4.stays.methodBodies m' hn.2).trans (hwait m' hm' hn.1)
    · exact (hdone m' hm').step hst4 (hst4.stays.methods m')
        (hst4.stays.methodBodies m' fun he => hnew (he ▸ hm')) rfl
  · obtain ⟨_, i, _, hi⟩ := hat1.this d rfl
    have hk := hst2.keeps.trans hst3.keeps
    exact ⟨i, hi.grows hk.insts (hk.alike.classParams d)⟩

/-- After all classes were checked, no jump leads out of a field. -/
theorem checkClasses_walks (hstart : s.program = p0) : Walks p0 G n { methods := fun _ => True } c s
    (p0.classes.ids.forM (checkClass e)) (p0.classes.ids.forM (checkClass e')) fun _ s' =>
      p0.Contained ∧ ∀ d, p0.classes.Valid d → ClassSettled p0 s'.program d := by
  refine (Walks.forEach (I := fun done s' =>
    (∀ d ∉ done, ∀ m ∈ (p0.classes.get d).allMethods, (s'.program.methods.get m).body =
      (p0.methods.get m).body) ∧ ∀ d ∈ done, ClassSettled p0 s'.program d) hs
    ⟨fun d _ m _ => by rw [hstart], forall_mem_nil _⟩
    fun done d rest s1 hids hst1 hs1 ⟨hwait, hsettled⟩ => ?_).post
    fun _ s1 hst1 hs1 ⟨_, hsettled⟩ => ⟨?_, fun d hv => hsettled d (mem_ids.2 hv)⟩
  · have hnew := not_mem_of_nodup (nodup_ids p0.classes) hids
    have hother {d' : ClassId} (hne : d' ≠ d) {m : MethodId}
      (hm : m ∈ (p0.classes.get d').allMethods) : m ∉ (p0.classes.get d).allMethods :=
      fun hm' => hne ((hs.wired.owned.owner hm).symm.trans (hs.wired.owned.owner hm'))
    refine (checkClass_walks he hs1 (mem_ids.1 (by simp [hids])) (hwait d hnew)).imp
      fun _ s2 hst2 _ hnext =>
      ⟨hst2.mono nofun nofun (fun _ _ _ => nofun) nofun (fun _ => id) (fun _ _ => trivial) fun _ =>
        id, fun d' hd' m hm => ?_,
        forall_mem_append.2 ⟨fun d' hd' => ?_, forall_mem_singleton.2 hnext⟩⟩
    · rw [mem_append, not_or, mem_singleton] at hd'
      exact (hst2.stays.methodBodies m (hother hd'.2 hm)).trans (hwait d' hd'.1 m hm)
    · exact (hsettled d' hd').step hst2 rfl fun m hm => hother (fun he => hnew (he ▸ hd')) hm
  · have hempty (i : NodeId) : s.program.slot i = .empty := hstart ▸ hs.wired.untyped.nodes i
    refine hs1.sound.contained hs.wired.shaped hs.charted (fun i ⟨t, ht⟩ _ => ?_) hs1.alike
      fun d v hv i hi => ?_
    · exact (hst1.new i (by simp) (hempty i)).resolve_left fun he => nomatch he.symm.trans ht
    · exact hs1.coherent.known_init ((hsettled d (mem_ids.2 (valid_of_mem_fields hv))).fields v hv)
        ((hs1.alike.init v).trans hi)

/-- The statements of a module give its entry the type that they have. -/
theorem entryBody_walks {d : FunctionId} {m : ModuleId} {body : NodeId} (hcontained : p0.Contained)
    (hat : At p0 G s.program c ⟨⟨none, []⟩, []⟩) (hv : p0.functions.Valid d)
    (hm : (p0.modules.get m).entry = some d) (hb : (p0.functions.get d).body = some body)
    (hbody : (s.program.functions.get d).body = some body)
    (hempty : (s.program.functions.get d).slot = .empty) :
    Walks p0 G n { entries := [d], functions := (· = d) } c s (do
      let result ← e.find body
      let t ← intern (.function [] result)
      write (.function d t)) (do
      let result ← e'.find body
      let t ← intern (.function [] result)
      write (.function d t)) fun _ s' => FunctionSettled p0 s'.program d := by
  have hopens : p0.Opens [] body :=
    .start (r := .function d) (mem_append_right _ (Option.mem_toList.2 hb))
  obtain ⟨_, _, hparams, hresult⟩ := hs.wired.shaped.entries m d hm
  have hscoped := hs.charted.calls hcontained d hv body hb
  rw [hparams] at hscoped
  refine (he.find hs hat ⟨hscoped, hat.starts hopens⟩).bind fun u s2 hst2 hs2 ⟨hu, _⟩ => ?_
  have hfunction : s2.program.Holds (.function [] u) :=
    holds_function.2 ⟨by simp, hs2.valid_slot hu⟩
  refine (Walks.intern hs2 hfunction nofun nofun).bind fun t s3 hst3 hs3 ⟨_, ht, hget⟩ => ?_
  have hslot : (s3.program.functions.get d).slot = .empty := by
    have hhere : (s.program.modules.get m).entry = some d := by rwa [hs.alike.modules]
    rw [(hst2.trans hst3).entries m d hhere (by simp), hempty]
  have hold (u : TypeId) (hu : (s3.program.functions.get d).slot = .fixed u) : t = u :=
    nomatch hslot.symm.trans hu
  have hspelled : s3.program.Spelled (s3.program.functions.get d).params
      (s3.program.functions.get d).result := by
    rw [hs3.alike.functionParams, hs3.alike.functionResult, hparams, hresult]
    exact ⟨by simp, by simp⟩
  refine (Walks.write hs3 (.setFunction hs3.inv ht hold hspelled fun _ _ => by simp)
    (hs3.sound.setFunction hs.charted hs3.coherent hold ⟨_, _, hget⟩
      fun hentry => absurd ⟨m, hm⟩ hentry)).post
    fun _ s4 _ _ hs4 => ⟨fun hentry => absurd ⟨m, hm⟩ hentry, fun _ b' hb' => ?_⟩
  have hset : s4.program.functions.get d =
      { s3.program.functions.get d with slot := .fixed t } := by
    rw [hs4]
    exact get_modify_self (hs3.alike.functionsValid.2 hv)
  rw [hset] at hb' ⊢
  rw [hst3.stays.functionBodies d id, hst2.stays.functionBodies d id, hbody] at hb'
  cases hb'
  refine ⟨t, u, rfl, hs4 ▸ hget, ?_⟩
  rw [hs4]
  exact hst3.keeps.slots _ _ hu

theorem functionBody_walks {d : FunctionId} {body : NodeId} (hcontained : p0.Contained)
    (hat : At p0 G s.program c ⟨⟨none, []⟩, []⟩) (hv : p0.functions.Valid d)
    (hb : (p0.functions.get d).body = some body)
    (hbody : (s.program.functions.get d).body = some body) (hlisted : ¬ p0.IsEntry d)
    (hslot : (s.program.functions.get d).slot = .fixed t)
    (hsaid : p0.Says G s.program ⟨none, true⟩ t) (loc : Location) :
    Walks p0 G n { entries := [d], functions := (· = d) } c s (do
      let body ← checkBody e body t loc
      edit (·.modifyFunction d fun d => { d with body := some body })) (do
      let body ← checkBody e' body t loc
      edit (·.modifyFunction d fun d => { d with body := some body })) fun _ s' =>
        FunctionSettled p0 s'.program d := by
  have hopens : p0.Opens [] body :=
    .start (r := .function d) (mem_append_right _ (Option.mem_toList.2 hb))
  have hw := hs.charted.functions d hv
  have hspelled := hs.coherent.functions d ⟨t, hslot⟩
  rw [hs.alike.functionParams] at hspelled
  have hat' : At p0 G s.program c ⟨⟨none, []⟩, (p0.functions.get d).params⟩ := by
    refine hat.enter rfl (fun v hv => ⟨hspelled.params v hv, true, ?_⟩) nofun
    obtain ⟨i, hi⟩ := Option.isSome_iff_exists.1 ((hs.wired.shaped.functions d).params v hv).2
    exact .init hi (hw.params v hv i hi).mem
  obtain ⟨ps, r, hget⟩ := hs.sound.functions d t hslot
  refine (checkBody_walks he hs hat'
    ⟨hs.charted.calls hcontained d hv body hb, hat.starts hopens⟩
    (hs.coherent.functionTypes d t hslot) hget hsaid _).bind
    fun b s3 hst3 hs3 ⟨hpassed, hsettled⟩ => ?_
  have hwritten : (s3.program.functions.get d).body = some body := by
    rw [hst3.stays.functionBodies d id, hbody]
  refine (Walks.edit hs3 (.setFunctionBody hs3.inv hsettled.known ⟨body, hwritten⟩ rfl)
    (hs3.sound.setFunctionBody hs.charted hs3.coherent hb hpassed)).post
    fun _ s4 hst4 _ hs4 => ⟨fun _ => ?_, fun hentry => absurd hentry hlisted⟩
  refine ⟨t, hst4.stays.functions d t (hst3.stays.functions d t hslot), fun b' hb' => ?_⟩
  rw [hs4, Program.modifyFunction, get_modify_self (hs3.alike.functionsValid.2 hv)] at hb'
  cases hb'
  exact hsettled.keeps hst4.keeps (hst4.signatures rfl)

/-- The statements of a module are worked on once. -/
theorem checkFunction_walks {d : FunctionId} {isEntry : Bool} (hcontained : p0.Contained)
    (hv : p0.functions.Valid d)
    (hbody : (s.program.functions.get d).body = (p0.functions.get d).body)
    (hlisted : isEntry = false → ¬ p0.IsEntry d)
    (hfirst : isEntry = true → (s.program.functions.get d).slot = .empty ∧ p0.IsEntry d) :
    Walks p0 G n { entries := [d], functions := (· = d) } c s (checkFunction e isEntry d)
      (checkFunction e' isEntry d) fun _ s' => FunctionSettled p0 s'.program d := by
  unfold checkFunction
  refine within_walks hs nofun fun c' s1 hst1 hs1 hat1 => .program ?_
  have hbody1 : (s1.program.functions.get d).body = (p0.functions.get d).body :=
    (hst1.stays.functionBodies d id).trans hbody
  dsimp only
  rw [hbody1]
  cases isEntry with
  | true =>
    obtain ⟨hempty, m, hm⟩ := hfirst rfl
    rw [if_pos rfl]
    split
    · rename_i body hb
      have hhere : (s.program.modules.get m).entry = some d := by rwa [hs.alike.modules]
      exact entryBody_walks he hs1 hcontained hat1 hv hm hb (hbody1.trans hb)
        ((hst1.entries m d hhere nofun).trans hempty)
    · rename_i hnone
      refine .pure hs1 ⟨fun hentry => absurd ⟨m, hm⟩ hentry, fun _ b hb => ?_⟩
      rw [hbody1] at hb
      exact absurd hb (hnone b)
  | false =>
    refine (functionType_walks hs1 _ hv (hlisted rfl)).bind
      fun t s2 hst2 hs2 ⟨hslot, hsaid⟩ => ?_
    have hbody2 := (hst2.stays.functionBodies d id).trans hbody1
    split
    · rename_i body hb
      exact functionBody_walks he hs2 hcontained (hat1.step hst2) hv hb (hbody2.trans hb)
        (hlisted rfl) hslot hsaid _
    · rename_i hnone
      refine .pure hs2
        ⟨fun _ => ⟨t, hslot, fun b hb => ?_⟩, fun hentry => absurd hentry (hlisted rfl)⟩
      rw [hbody2] at hb
      exact absurd hb (hnone b)

end Bodies

end Typing

end ClassLang

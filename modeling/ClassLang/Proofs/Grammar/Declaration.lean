import ClassLang.Grammar.Module
import ClassLang.Proofs.Grammar.Expression

namespace ClassLang.Grammar

open Arena Program

variable {O : NodeId → Prop} {c : Context} {z : Zone} {p₀ p q : Program} {r : Rules}
  {owner : ClassId}

section Lists

variable {m : MethodId}

theorem allMethods_addOverload (k : Nat) (m : MethodId) (d : ClassDef) :
    (addOverload k m d).allMethods = d.allMethods ∨ (addOverload k m d).allMethods.Perm
      (m :: d.allMethods) := by
  have hbases (bases : List Base) (k : Nat) :
      (bases.modify k fun b => { b with overloads := b.overloads ++ [m] }) = bases ∨
      ((bases.modify k fun b => { b with overloads := b.overloads ++ [m] }).flatMap
        Base.overloads).Perm (m :: bases.flatMap Base.overloads) := by
    induction bases generalizing k with
    | nil => exact .inl (by cases k <;> rfl)
    | cons b bases ih =>
      cases k with
      | zero =>
        refine .inr ?_
        simp only [List.modify_zero_cons, List.flatMap_cons, List.append_assoc,
          List.singleton_append]
        exact List.perm_middle
      | succ k =>
        rcases ih k with h | h
        · exact .inl (by rw [List.modify_succ_cons, h])
        · refine .inr ?_
          simp only [List.modify_succ_cons, List.flatMap_cons]
          exact (h.append_left _).trans List.perm_middle
  rcases hbases d.bases k with h | h
  · exact .inl (by simp only [ClassDef.allMethods, addOverload, h])
  · exact .inr ((h.append_left _).trans List.perm_middle)

section

variable (h : p₀.Built O p)
include h

theorem editClass_builds {g : ClassDef → ClassDef} (refs : List NodeId)
    (howned : ({ p with classes := p.classes.modify owner g } : Program).Owned)
    (hsame : ∀ x, (g x).flattened = x.flattened ∧ (g x).dispatch = x.dispatch)
    (hbases : ∀ x, (∀ b ∈ x.bases, b.inst = none) → ∀ b ∈ (g x).bases, b.inst = none)
    (hrefs : ∀ x, (g x).bases.map Base.reference = x.bases.map Base.reference ++ refs)
    (hmade : p.Sprouts p₀.nodes.size (refs.map (⟨some owner, []⟩, ·))) (hclear : p.Clear O refs) :
    Builds O c p₀ p (editClass owner g) fun _ _ => True :=
  (Builds.edit (h.modifyClass howned (fun x => (hsame x).1) (fun x => (hsame x).2) hbases hrefs
    hmade hclear)).post fun _ _ _ _ => trivial

theorem listBase_builds {reference : NodeId}
    (href : p.Made p₀.nodes.size ⟨some owner, []⟩ reference)
    (hO : ∀ t, O t → t.index < p₀.nodes.size) :
    Builds O c p₀ p (editClass owner fun d => { d with bases := d.bases ++ [{ reference }] })
      fun _ _ => True := by
  refine editClass_builds h [reference] ?_ (fun _ => ⟨rfl, rfl⟩) (fun x hx b hb => ?_) (fun x => ?_)
    (.single href) (Sprouts.clear (z := ⟨some owner, []⟩) (.single href) hO)
  · refine h.sown.owned.modifyClass (fun m hm => .inl hm) (fun k b hb m hm => .inl ?_) ?_
      (fun f hf => .inl hf) (h.sown.owned.distinctFields owner) fun _ => by rfl
    · rw [List.getElem?_append] at hb
      split at hb
      · exact ⟨b, hb, hm⟩
      · obtain ⟨_, hb⟩ := List.getElem?_eq_some_iff.1 hb
        simp only [List.getElem_singleton] at hb
        rw [← hb] at hm
        cases hm
    · simpa [ClassDef.allMethods] using h.sown.owned.distinctMethods owner
  · rcases List.mem_append.1 hb with hb | hb
    · exact hx b hb
    · rw [List.mem_singleton.1 hb]
  · simp

theorem listOverload_builds {k : Nat} (hm : p.Loose owner (some k) m) :
    Builds O c p₀ p (editClass owner (addOverload k m)) fun _ _ => True := by
  have hget (x : ClassDef) (j : Nat) : (addOverload k m x).bases[j]? =
    (fun b => if k = j then { b with overloads := b.overloads ++ [m] } else b) <$> x.bases[j]? :=
    List.getElem?_modify ..
  refine editClass_builds h [] ?_ (fun _ => ⟨rfl, rfl⟩) (fun x hx b hb => ?_) (fun x => ?_)
    (.nil _ _) (.nil _ _)
  · refine h.sown.owned.modifyClass (fun m hm => .inl hm) (fun j b hb e he => ?_) ?_
      (fun f hf => .inl hf) (h.sown.owned.distinctFields owner) fun _ => by rfl
    · rw [hget] at hb
      obtain ⟨b', hb', rfl⟩ := Option.map_eq_some_iff.1 hb
      split at he
      · rename_i hkj
        rcases List.mem_append.1 he with he | he
        · exact .inl ⟨b', hb', he⟩
        · exact .inr (hkj ▸ List.mem_singleton.1 he ▸ hm)
      · exact .inl ⟨b', hb', he⟩
    · rcases allMethods_addOverload k m (p.classes.get owner) with he | he
      · exact he ▸ h.sown.owned.distinctMethods owner
      · exact he.nodup_iff.2
          (List.nodup_cons.2 ⟨hm.unlisted owner, h.sown.owned.distinctMethods owner⟩)
  · obtain ⟨b', hb', rfl | rfl⟩ := exists_of_mem_modify hb
    · exact hx b hb'
    · exact hx b' hb'
  · rw [List.append_nil]
    refine List.ext_getElem? fun j => ?_
    rw [List.getElem?_map, List.getElem?_map, hget]
    cases x.bases[j]? with
    | none => rfl
    | some b =>
      simp only [Option.map_eq_map, Option.map_some]
      split <;> rfl

theorem listMethod_builds (hm : p.Loose owner none m) :
    Builds O c p₀ p (editClass owner fun d => { d with methods := d.methods ++ [m] })
      fun _ _ => True := by
  refine editClass_builds h [] ?_ (fun _ => ⟨rfl, rfl⟩) (fun x hx => hx) (fun x => by simp)
    (.nil _ _) (.nil _ _)
  refine h.sown.owned.modifyClass (fun e he => ?_) (fun j b hb e he => .inl ⟨b, hb, he⟩) ?_
    (fun f hf => .inl hf) (h.sown.owned.distinctFields owner) fun _ => by rfl
  · rcases List.mem_append.1 he with he | he
    · exact .inl he
    · exact .inr (List.mem_singleton.1 he ▸ hm)
  · have hperm : ({ p.classes.get owner with methods := (p.classes.get owner).methods ++ [m] } :
        ClassDef).allMethods.Perm (m :: (p.classes.get owner).allMethods) := by
      simp only [ClassDef.allMethods, List.append_assoc, List.singleton_append]
      exact List.perm_middle
    exact hperm.nodup_iff.2
      (List.nodup_cons.2 ⟨hm.unlisted owner, h.sown.owned.distinctMethods owner⟩)

theorem listField_builds {f : VarId} (hf : p.vars.Valid f)
    (hrole : (p.vars.get f).role = .field owner) (hinit : (p.vars.get f).init.isSome)
    (hnew : f ∉ (p.classes.get owner).fields) :
    Builds O c p₀ p (editClass owner fun d => { d with fields := d.fields ++ [f] })
      fun _ _ => True := by
  refine editClass_builds h [] ?_ (fun _ => ⟨rfl, rfl⟩) (fun x hx => hx) (fun x => by simp)
    (.nil _ _) (.nil _ _)
  refine h.sown.owned.modifyClass (fun m hm => .inl hm) (fun j b hb e he => .inl ⟨b, hb, he⟩)
    (h.sown.owned.distinctMethods owner) (fun e he => ?_) ?_ fun _ => by rfl
  · rcases List.mem_append.1 he with he | he
    · exact .inl he
    · exact .inr (List.mem_singleton.1 he ▸ ⟨hf, hrole, hinit⟩)
  · refine List.nodup_append.2 ⟨h.sown.owned.distinctFields owner, by simp, ?_⟩
    rintro e he _ hf rfl
    exact hnew (List.mem_singleton.1 hf ▸ he)

end

end Lists

section Members

theorem addFunction_builds {f : Function} (h : p₀.Built O p)
    (hf : p.Declares f.params f.result f.body) (hslot : f.slot = .empty)
    (htext : p.Sprouts p₀.nodes.size
      ((p.paramTypes f.params ++ f.result.toList ++ f.body.toList).map (⟨none, []⟩, ·)))
    (hopen : ∀ t, O t → ∀ x ∈ p.paramTypes f.params ++ f.result.toList ++ f.body.toList,
      p.Below x t → x = t ∧ f.body = some t) :
    Builds O c p₀ p (addFunction f) fun i q => ¬ p.functions.Valid i ∧
      q = { p with functions := (p.functions.push f).2 } ∧ q.functions.Valid i ∧
      q.functions.get i = f := by
  refine .onProgram (h.addFunction hf hslot htext hopen) ⟨not_valid_size _, rfl, ?_, ?_⟩
  · exact valid_push.2 (.inr rfl)
  · exact (get_push ..).trans (if_pos rfl)

section Parts

variable {q₁ q₂ q₃ : Program} {params : List VarId} {result body : Option NodeId} {lo : Nat}
  (hparams : ∀ v ∈ params, (q₁.vars.get v).role = .param ∧ (q₁.vars.get v).init.isSome)
  (h₁ : q₁.Built O q₂) (hresult : q₂.Sprouts q₁.nodes.size (result.toList.map (z, ·)))
  (h₂ : q₂.Built O q₃) (hbody : q₃.Sprouts q₂.nodes.size (body.toList.map (z, ·)))
include hparams h₁ hresult h₂ hbody

theorem declares_of_parts : q₃.Declares params result body := by
  have hhead : q₁.Declares params none none := ⟨hparams, nofun, nofun⟩
  refine { hhead.mono (h₁.trans h₂).ext with result := fun i hi => ?_, body := fun i hi => ?_ }
  · exact h₂.ext.nodes i (hresult.made (z, i) (List.mem_map_of_mem (Option.mem_toList.2 hi))).valid
  · exact (hbody.made (z, i) (List.mem_map_of_mem (Option.mem_toList.2 hi))).valid

theorem text_of_parts (hlo : lo ≤ q₁.nodes.size)
    (htypes : q₁.Sprouts lo ((q₁.paramTypes params).map (z, ·))) :
    q₃.Sprouts lo ((q₃.paramTypes params ++ result.toList ++ body.toList).map (z, ·)) := by
  rw [paramTypes_of_grows (h₁.kept.trans h₂.kept).vars fun v hv => (hparams v hv).1,
    List.map_append, List.map_append]
  exact (htypes.append h₁.kept hlo hresult).append h₂.kept (Nat.le_trans hlo h₁.kept.nodes) hbody

end Parts

variable (hr : r.Good O)
include hr

theorem typedParams_builds (hp : Ground O c z p) : Builds O c p p (typedParams r) fun vs q =>
    (∀ v ∈ vs, (q.vars.get v).role = .param ∧ (q.vars.get v).init.isSome) ∧
      q.Sprouts p.nodes.size ((q.paramTypes vs).map (z, ·)) :=
  .quiet (.expect _) fun _ =>
    (params_build hp (·.isSome) fun _ hq => typedParam_builds hr (hp.step hq)).post
    fun _ _ _ ⟨_, hvs, htypes, _⟩ => ⟨fun v hv => (hvs v hv).2, htypes⟩

theorem resultType_builds (hp : Ground O c z p) : Builds O c p p (resultType r) fun o q =>
    q.Sprouts p.nodes.size (o.toList.map (z, ·)) := by
  unfold resultType
  refine .quiet .peek fun t => ?_
  split
  · exact .pure hp.refl (.nil _ _)
  · exact .pure hp.refl (.nil _ _)
  · exact .pure hp.refl (.nil _ _)
  · exact .some (hr.typeTree hp)

theorem method_builds (hp : Ground O c ⟨some owner, []⟩ p) (name : String) (span : Span)
    (base : Option Nat) :
    Builds O c p p (method r owner name span base) fun m q => q.Loose owner base m := by
  unfold method
  refine .bind (typedParams_builds hr hp) fun params q hq ⟨hparams, htypes⟩ => ?_
  refine .call hq (resultType_builds hr (hp.step hq)) fun result q₁ hq₁ h₁ hresult =>
    .quiet (.looking _) fun b => ?_
  extract_lets finish
  have hfinish (body : Option NodeId) (q₂ : Program) (h₂ : q₁.Built O q₂)
      (hbody : q₂.Sprouts q₁.nodes.size (body.toList.map (⟨some owner, []⟩, ·))) :
      Builds O c p q₂ (finish body) fun m q => q.Loose owner base m := by
    have hq₂ := hq₁.trans h₂
    refine .call hq₂ (rootName_builds (hp.step hq₂).refl _) fun name q₃ hq₃ h₃ _ =>
      .quiet (.locate _) fun loc => ?_
    have hdeclares := declares_of_parts hparams h₁ hresult (h₂.trans h₃) (hbody.step h₃.kept)
    have htext := text_of_parts hparams h₁ hresult (h₂.trans h₃)
      (hbody.step h₃.kept) hq.kept.nodes htypes
    refine .onProgram (hq₃.addMethod hdeclares rfl rfl htext (htext.clear hp.opened)) ?_
    have hget := (get_push q₃.methods { name, owner, params, result, body, base, loc } _).trans
      (if_pos rfl)
    refine ⟨valid_push.2 (.inr rfl), congrArg Method.owner hget, congrArg Method.base hget,
      fun d hm => ?_⟩
    exact not_valid_size _ (hq₃.sown.owned.valid_method hm)
  have hplace := hp.step hq₁
  refine .quiet .get fun s => ?_
  split
  · exact .call hq₁ (.some (callableBody_builds hr hplace)) fun body q₂ _ h₂ hbody =>
      hfinish body q₂ h₂ hbody
  · split
    · exact .quiet .endStatement fun _ => hfinish none q₁ hplace.refl (.nil _ _)
    · exact .failAt _ _

theorem classParam_builds (hp : Ground O c ⟨none, []⟩ p) (howner : p.classes.Valid owner) :
    Builds O c p p (classParam r owner) fun _ _ => True := by
  unfold classParam
  refine .quiet .expectIdent fun (name, span) => .quiet (.eat _) fun b => ?_
  extract_lets finish
  have hfinish (boundRef : Option NodeId) (q : Program) (hq : p.Built O q)
      (hbound : q.Sprouts p.nodes.size (boundRef.toList.map (⟨none, []⟩, ·))) :
      Builds O c p q (finish boundRef) fun _ _ => True := by
    refine .call hq (rootName_builds (hp.step hq).refl _) fun name q' hq' hstep _ =>
      .quiet (.locate _) fun loc => ?_
    have hvalid : q'.classes.Valid owner := Nat.lt_of_lt_of_le howner hq'.classes
    have hbound := hbound.step hstep.kept
    exact (Builds.edit (hq'.addParam rfl hvalid rfl rfl hbound (hbound.clear hp.opened))).post
      fun _ _ _ _ => trivial
  split
  · exact .bind (.some ((classRef_builds hr hp).post fun _ _ _ h => h.1.1)) hfinish
  · exact hfinish none p hp.refl (.nil _ _)

variable (hp : Place O c z p) (hz : z.owner = some owner) (htargets : ∀ t ∈ z.targets, O t)
include hp hz

theorem base_builds : Builds O c p p (base r owner) fun _ _ => True := by
  have hground : Ground O c ⟨some owner, []⟩ p := hz ▸ hp.toGround.closed
  unfold base
  refine .quiet .advance fun _ => .bind (classRef_builds hr hground)
    fun reference q hq ⟨⟨href, _⟩, _⟩ => .quiet .get fun s => ?_
  extract_lets index
  refine .bind (listBase_builds hq href hground.opened) fun _ q hq _ => .quiet (.eat _) fun b => ?_
  split
  · refine .bind (.repeatFrom (I := fun _ _ => True) hq trivial fun _ q hq _ => ?_) fun _ _ hq _ =>
      .quiet (.expect _) fun _ => .pure hq trivial
    refine .quiet (.looking _) fun b => ?_
    split
    · exact .pure hq trivial
    · refine .quiet (.eat _) fun b => ?_
      split
      · exact .pure hq trivial
      · refine .quiet .expectIdent fun (name, span) => ?_
        refine .call hq (method_builds hr (hground.step hq) name span _) fun m q hq _ hm => ?_
        exact .bind (listOverload_builds hq hm) fun _ _ hq _ => .pure hq trivial
  · exact .pure hq trivial

include htargets

/-- A field belongs to the program before its class knows it. -/
theorem member_builds : Builds O c p p (member r owner) fun _ _ => True := by
  unfold member
  refine .quiet .expectIdent fun (name, span) => .quiet (.eat _) fun b => ?_
  split
  · refine .bind (hr.expression _ _ _ hp) fun init q hq hinit => .quiet .endStatement fun _ => ?_
    refine .call hq (rootName_builds (hp.step hq).refl _) fun name q₁ hq₁ h₁ _ => .quiet (.locate _)
      fun loc => ?_
    have hinit := (hinit.step h₁.kept).1
    refine .bind (addVar_builds (s := z.targets) hq₁ ?_ (fun h => by cases h) rfl ?_ htargets
      (Sprouts.clear (z := z) (.single hinit) hp.opened))
      fun field q₂ hq₂ ⟨hnew, hget, _, hclasses⟩ => ?_
    · rintro _ ⟨⟩
      exact hinit.valid
    · rw [show z = ⟨some owner, z.targets⟩ from hz ▸ rfl] at hinit
      exact .single hinit
    · refine listField_builds hq₂ hnew.valid (by rw [hget]) (by rw [hget]; rfl) fun hf => ?_
      rw [hclasses] at hf
      exact hnew.fresh (hq₁.sown.owned.fields owner field hf).1
  · exact .bind (method_builds hr (hz ▸ hp.toGround.closed) name span none) fun m q hq hm =>
      listMethod_builds hq hm

theorem classMembers_builds : Builds O c p p (classMembers r owner) fun _ _ => True := by
  unfold classMembers
  refine .quiet (.expect _) fun _ =>
    .bind (.repeatFrom (I := fun _ _ => True) hp.refl trivial fun _ q hq _ => ?_) fun _ _ hq _ =>
    .quiet (.expect _) fun _ => .pure hq trivial
  refine .quiet .peek fun t => ?_
  split
  · exact .pure hq trivial
  · exact .quiet .advance fun _ => .pure hq trivial
  · exact .call hq (base_builds hr (hp.step hq) hz) fun _ _ hq _ _ => .pure hq trivial
  · exact .call hq (member_builds hr (hp.step hq) hz htargets) fun _ _ hq _ _ => .pure hq trivial

end Members

section Declarations

variable (hr : r.Good O) (hp : Place O c z p) (hz : z.owner = none)
  (htargets : ∀ t ∈ z.targets, O t)
include hr hp hz

include htargets in
theorem classDecl_builds (isInterface : Bool) :
    Builds O c p p (classDecl r isInterface) fun _ _ => True := by
  unfold classDecl
  refine .quiet .advance fun _ => .quiet .expectIdent fun (name, span) => .read ?_
  refine .bind (childName_builds hp.refl _ _) fun name q hq _ => .quiet (.locate _) fun loc => ?_
  refine .bind (Q := fun owner q => q.classes.Valid owner) (.onProgram ?_ ?_)
    fun owner q hq howner => .quiet (.eat _) fun b => ?_
  · refine (hq.addClass rfl rfl rfl rfl rfl rfl).modifyModule (fun _ => by rfl) (fun _ => by rfl)
      (fun m e he => ?_) _
    rcases List.mem_append.1 he with he | he
    · exact .inl he
    · exact .inr (List.mem_singleton.1 he ▸ valid_push.2 (.inr rfl))
  · exact valid_push.2 (.inr rfl)
  · extract_lets members
    have hmembers (q : Program) (hq : p.Built O q) : Builds O c p q (members ())
        fun _ _ => True := by
      have hplace : Place O { c with owner := some owner } ⟨some owner, z.targets⟩ q :=
        { hp.step hq with owner := rfl }
      exact .since hq (.withReader (classMembers_builds hr hplace rfl htargets))
    split
    · refine .bind (.listUntil (I := fun _ q => q.classes.Valid owner) hq howner
        fun _ q hq howner => ?_) fun _ q hq _ => hmembers q hq
      have hground : Ground O c ⟨none, []⟩ q := hz ▸ (hp.step hq).toGround.closed
      exact .since hq ((classParam_builds hr hground howner).post fun _ _ hstep _ =>
        Nat.lt_of_lt_of_le howner hstep.classes)
    · exact hmembers q hq

theorem functionDecl_builds : Builds O c p p (functionDecl r) fun _ _ => True := by
  have hground : Ground O c ⟨none, []⟩ p := hz ▸ hp.toGround.closed
  unfold functionDecl
  refine .quiet .advance fun _ => .quiet .expectIdent fun (name, span) => .read ?_
  refine .bind (childName_builds hp.refl _ _) fun name q hq _ => ?_
  refine .call hq (typedParams_builds hr (hground.step hq))
    fun params q₁ hq₁ h₁ ⟨hparams, htypes⟩ => ?_
  refine .call hq₁ (resultType_builds hr (hground.step hq₁)) fun result q₂ hq₂ h₂ hresult =>
    .quiet (.looking _) fun b => ?_
  extract_lets finish
  have hfinish (body : Option NodeId) (q₃ : Program) (h₃ : q₂.Built O q₃)
      (hbody : q₃.Sprouts q₂.nodes.size (body.toList.map (⟨none, []⟩, ·))) :
      Builds O c p q₃ (finish body) fun _ _ => True := by
    have hq₃ := hq₂.trans h₃
    refine .quiet (.locate _) fun loc => ?_
    have htext := text_of_parts hparams h₂ hresult h₃ hbody h₁.kept.nodes htypes
    refine .bind (addFunction_builds hq₃ (declares_of_parts hparams h₂ hresult h₃ hbody) rfl
      (htext.mono hq.kept.nodes) fun t ht x hx hb =>
      absurd hb (htext.clear (hground.step hq).opened t ht x hx))
      fun f q₄ hq₄ ⟨hfresh, hq, hf, _⟩ => ?_
    subst hq
    refine (Builds.edit (hq₄.listFunction hf (fun m hm => ?_) _)).post fun _ _ _ _ => trivial
    exact hfresh (hq₃.shaped.entries m f hm).1
  split
  · exact .call hq₂ (.some (callableBody_builds hr (hground.step hq₂))) fun body q₃ _ h₃ hbody =>
      hfinish body q₃ h₃ hbody
  · exact .quiet .endStatement fun _ => hfinish none q₂ (hp.step hq₂).refl (.nil _ _)

end Declarations

section Statements

theorem Quiet.statementsEnd (topLevel : Bool) : Quiet (statementsEnd topLevel) := by
  refine .bind .peek fun t => ?_
  split
  · split
    · exact .pure _
    · exact .failWanting _
  · split
    · exact .failWanting _
    · exact .pure _
  · exact .pure _

variable (hr : r.Good O) (hp : Place O c z p) {topLevel : Bool}
  (htop : topLevel = true → z.owner = none ∧ ∀ t ∈ z.targets, O t)
include hr hp htop

theorem localDecl_builds (name : String) : Plants O c z p (localDecl r topLevel name) := by
  unfold localDecl
  refine .quiet .advance fun start => .quiet .advance fun _ => .bind (hr.expression _ _ _ hp)
    fun init q hq hinit => ?_
  refine .quiet .endStatement fun _ => .call hq (rootName_builds (hp.step hq).refl _)
    fun name q₁ hq₁ h₁ _ => ?_
  refine .quiet (.locate _) fun loc =>
    .call hq₁ (addPlainVar_builds (hp.step hq₁).refl ?_ (fun h => by cases h) rfl rfl)
    fun v q₂ hq₂ h₂ ⟨_, _, hget⟩ => ?_
  · rintro _ ⟨⟩
    exact h₁.ext.nodes _ hinit.valid
  · refine .call hq₂ (hr.statements _ _ _ _ (hp.step hq₂) htop) fun body q₃ hq₃ h₃ hbody =>
      .quiet (.spanFrom _) fun _ => ?_
    have hrole : (q₂.vars.get v).role = .localVar := by rw [hget]
    have hget₃ := (h₃.kept.vars.get_eq (valid_of_role hrole (by simp))).trans hget
    have hparts := ((Sprouts.single hinit).step (h₁.kept.trans h₂.kept)).append h₃.kept
      hq₂.kept.nodes hbody
    refine tree_builds hq₃ ⟨by rw [hget₃], by rw [hget₃]; rfl⟩ hq₃.kept.nodes ?_ nofun
    show q₃.Sprouts _ (((q₃.vars.get v).init.toList ++ body).map (z, ·))
    rw [hget₃]
    exact hparts

theorem statement_builds {lo : Nat} {stmts : List NodeId} (hlo : lo ≤ p.nodes.size)
    (hstmts : p.Sprouts lo (stmts.map (z, ·))) :
    Builds O c p p (statement r topLevel stmts) fun e q => q.Sprouts lo (e.value.map (z, ·)) := by
  have hmore {i : NodeId} {q : Program} (hq : p.Built O q) (hi : q.Made p.nodes.size z i) :
      q.Sprouts lo ((stmts ++ [i]).map (z, ·)) := by
    rw [List.map_append]
    exact hstmts.snoc hq.kept hlo hi
  unfold statement
  refine .quiet (.statementsEnd _) fun b => ?_
  split
  · exact .pure hp.refl hstmts
  · refine .quiet .peek fun next => .quiet .peekSecond fun second => ?_
    split
    · exact .quiet .advance fun _ => .pure hp.refl hstmts
    · exact .bind (localDecl_builds hr hp htop _) fun _ _ hq hi => .pure hq (hmore hq hi)
    · split
      · rename_i htl
        exact .bind (classDecl_builds hr hp (htop (Bool.and_eq_true_iff.1 htl).1).1
          (htop (Bool.and_eq_true_iff.1 htl).1).2 _) fun _ _ hq _ => .pure hq (hstmts.step hq.kept)
      · split
        · rename_i htl
          have htl := (Bool.and_eq_true_iff.1 (Bool.and_eq_true_iff.1 htl).1).1
          exact .bind (functionDecl_builds hr hp (htop htl).1) fun _ _ hq _ =>
            .pure hq (hstmts.step hq.kept)
        · exact .bind (expression_builds hr hp) fun _ _ hq hi => .quiet .endStatement fun _ =>
            .pure hq (hmore hq hi)

theorem statements_builds :
    Builds O c p p (statements r topLevel) fun is q => q.Sprouts p.nodes.size (is.map (z, ·)) :=
  .repeatFrom hp.refl (.nil _ _) fun _ _ hq hstmts =>
    .since hq (statement_builds hr (hp.step hq) htop hq.kept.nodes hstmts)

end Statements

/-- What holds one level further in holds here, so the induction is on the level. -/
theorem rules_good (n : Nat) : (rules n).Good O := by
  induction n with
  | zero =>
    exact ⟨fun _ _ _ _ => .failWanting _, fun _ _ _ _ => .failWanting _, fun _ _ _ _ =>
      .failWanting _, fun _ _ _ _ => .failWanting _, fun _ _ _ _ _ _ => .failWanting _⟩
  | succ n ih =>
    exact ⟨fun _ _ _ hp => expression_builds ih hp, fun _ _ _ hp => guarded_builds ih hp,
      fun _ _ _ hp => unary_builds ih hp, fun _ _ _ hp => typeExpr_builds ih hp,
      fun _ _ _ _ hp htop => statements_builds ih hp htop⟩

end ClassLang.Grammar

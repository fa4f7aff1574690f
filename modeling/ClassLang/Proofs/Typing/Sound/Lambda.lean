import ClassLang.Proofs.Typing.Sound.Assign

namespace ClassLang.Typing

open List Program TypeTable

variable {p0 : Program} {G : Atlas} {n : Nat} {f : Focus} {c : Context} {s s1 s' s'' : PassState}
  {o : Option ClassId} {t : TypeId} {e e' : Engine} {z : Setting} {l : LambdaId} {v : VarId}
  {cold : ColdId}

/-- The parameters of a lambda belong where it stands. -/
theorem Awaits.home {p : Program} (h : p0.Awaits G p z l) (hv : v ∈ (p0.lambdas.get l).params) :
    p0.Home G ⟨z.owner, false⟩ v := by
  cases hinit : (p0.vars.get v).init with
  | some d => exact .init hinit (h.types v hv d hinit).mem
  | none => exact .param hinit hv h.body.mem

section Lambdas

variable (he : e.Good p0 G n e') (hs : Ready p0 G c s) (hw : p0.Awaits G s.program z l)
include he hs hw

theorem body_walks (hparams : ∀ v ∈ (p0.lambdas.get l).params, s.program.VarKnown v) :
    Walks p0 G n {} c s (within (p0.lambdas.get l).owner (e.find (p0.lambdas.get l).body))
      (within (p0.lambdas.get l).owner (e'.find (p0.lambdas.get l).body)) fun u s' =>
      s'.program.slot (p0.lambdas.get l).body = .fixed u ∧ Said p0 G z.owner u s' := by
  rw [hw.owner]
  refine within_walks hs hw.valid fun c' s1 hst1 hs1 hat => ?_
  refine he.find (z := (z.seeing _).closed) hs1
    (hat.enter rfl (forall_mem_append.2 ⟨fun v hv => ?_, ?_⟩) nofun) ⟨hw.body, hat.starts hw.opens⟩
  · exact ⟨hst1.keeps.vars v (hparams v hv), false, (Awaits.home hw hv :)⟩
  · exact fun v hv => ⟨hst1.keeps.vars v (hw.seen v hv).1, (hw.seen v hv).2⟩

theorem lambdaType_walks (hl : p0.lambdas.Valid l) (loc : Location) :
    Walks p0 G n {} c s (lambdaType e l loc) (lambdaType e' l loc) fun t s' =>
      s'.program.types.Valid t ∧ Said p0 G z.owner t s' ∧
      (p0.isAnnotated (p0.lambdas.get l) = true → s'.program.LambdaKnown l) ∧
      (p0.isAnnotated (p0.lambdas.get l) = false →
        ∃ c, (s'.program.lambdas.get l).cold = some c) := by
  unfold lambdaType
  refine .program (.program ?_)
  rw [hs.alike.isAnnotated, hs.alike.lambdaParams, hs.alike.lambdaBody, hs.alike.lambdaOwner]
  split
  · rename_i hann
    refine (Walks.mapM (P := fun v t s => s.program.types.Valid t ∧ s.program.VarKnown v ∧
      Said p0 G z.owner t s) hs
      (fun v t _ _ hs h hv =>
        ⟨h.keeps.types.valid hv.1, h.keeps.vars v hv.2.1, hv.2.2.step hs.inv h⟩)
      fun v hv s1 hst1 hs1 => ?_).bind fun ts s1 hst1 hs1 hts => ?_
    · obtain ⟨d, hd⟩ := Option.isSome_iff_exists.1 (all_eq_true.1 hann v hv)
      exact (declaredVar_walks hs1 ((hs.wired.shaped.params l).2 v hv) hd (hw.types v hv d hd) rfl
        loc).post fun t s2 _ hs2 ⟨_, ht, hsaid⟩ => ⟨hs2.coherent.varTypes v t ht, ⟨t, ht⟩, hsaid⟩
    · have hparams := forall_of_forall₂ hts.flip fun _ _ h => h.2.1
      refine (body_walks he hs1 (hw.keeps hst1.keeps) hparams).bind
        fun u s2 hst2 hs2 ⟨hslot, hsaid⟩ => ?_
      have hts2 : ∀ t ∈ ts, s2.program.types.Valid t ∧ Said p0 G z.owner t s2 :=
        forall_of_forall₂ hts fun _ _ h => ⟨hst2.keeps.types.valid h.1, h.2.2.step hs1.inv hst2⟩
      refine (Walks.intern hs2 (holds_lambda.2 ⟨fun t ht => (hts2 t ht).1, hs2.valid_slot hslot⟩)
        nofun nofun).post fun t s3 hst3 hs3 ⟨_, ht, hget⟩ =>
        ⟨ht, .make ht hget rfl nofun fun x hx => ?_, fun _ => ⟨fun v hv => ?_, ?_⟩, fun hn => ?_⟩
      · rcases mem_append.1 hx with hx | hx
        · exact (hts2 x hx).2.step hs2.inv hst3
        · exact mem_singleton.1 hx ▸ hsaid.step hs2.inv hst3
      · rw [hs3.alike.lambdaParams] at hv
        exact (hst2.trans hst3).keeps.vars v (hparams v hv)
      · rw [hs3.alike.lambdaBody]
        exact ⟨u, hst3.keeps.slots _ _ hslot⟩
      · exact nomatch hann.symm.trans hn
  · rename_i hann
    extract_lets name
    have hname {s1 : PassState} (hs1 : Ready p0 G c s1) {cold : ColdId}
        (hc : (s1.program.lambdas.get l).cold = some cold) : Goes p0 G n {} c s1 (name cold)
        fun t s' => s'.program.types.Valid t ∧ Said p0 G z.owner t s' ∧
        (p0.isAnnotated (p0.lambdas.get l) = true → s'.program.LambdaKnown l) ∧
        (p0.isAnnotated (p0.lambdas.get l) = false →
          ∃ c, (s'.program.lambdas.get l).cold = some c) := by
      refine (Walks.intern hs1 (holds_cold.2 (hs1.coherent.colds.placed l cold hc).1) nofun
        nofun).post fun t s2 hst2 hs2 ⟨_, ht, hget⟩ => ?_
      have hc2 := hst2.keeps.lambdas l cold hc
      refine ⟨ht, .makeCold ht hget fun _ => ⟨l, hc2, ?_⟩, fun hn => absurd hn hann,
        fun _ => ⟨cold, hc2⟩⟩
      rw [hs2.alike.lambdaOwner, hs2.alike.formals, hw.owner]
    split
    · rename_i cold hc
      exact hname hs hc
    · rename_i hc
      refine .program ?_
      have hvalid := hs.alike.lambdasValid.2 hl
      refine (Walks.write hs (.place hs.inv hvalid hc)
        (hs.sound.place hs.charted hs.coherent hvalid hc hw)).bind
        fun _ s1 _ hs1 hafter => hname hs1 ?_
      subst hafter
      simp only [PassState.after, Write.apply, Arena.get_modify, hvalid, and_true, if_true]
      rfl

end Lambdas

theorem normalize_walks (hs : Ready p0 G c s) (ht : s.program.types.Valid t)
    (hsaid : Said p0 G o t s) :
    Goes p0 G n f c s (normalize t) fun u s' => s'.program.types.Valid u ∧ s'.program.Normal t u ∧
      Said p0 G o u s' := by
  unfold normalize
  refine .typeOf ?_
  split
  · rename_i cold hget
    refine .program (.pure hs ?_)
    cases hsig : (s.program.colds.lookup cold).signature with
    | none => exact ⟨ht, .inl rfl, hsaid⟩
    | some u =>
      exact ⟨(hs.signature hsig).1, .inr ⟨cold, hget, hsig⟩, (hsaid.cold hget).signature hs hsig⟩
  · exact .pure hs ⟨ht, .inl rfl, hsaid⟩

section Fixing

abbrev siteFocus (s : PassState) (cold : ColdId) : Focus :=
  { sites := (s.program.colds.lookup cold).sites }

def Waits (p0 : Program) (s : PassState) (cold : ColdId) (given : List VarId) (s' : PassState) :
    Prop :=
  p0.marks.Calm s'.writes → p0.marks.Fresh s'.writes → ∀ l ∈ (s.program.colds.lookup cold).sites,
    ∀ v ∈ (p0.lambdas.get l).params, (p0.vars.get v).init = none → v ∉ given →
    ¬ s'.program.VarKnown v

def Accepting (p0 : Program) (s : PassState) (xs : List (VarId × TypeId)) : Prop :=
  p0.marks.Calm s.writes → p0.marks.Fresh s.writes → ∀ x ∈ xs, s.program.Accepts x.1 x.2

theorem Accepting.step {xs : List (VarId × TypeId)} (h : Accepting p0 s xs) (hs : Inv p0 s)
    (hst : Step p0 f s s') : Accepting p0 s' xs :=
  fun hc hf x hx => (h (hc.of_suffix hst.log) (hf.of_suffix hst.log) x hx).keeps hst.keeps
    (hst.steady hs hc hf) hs.coherent

variable {given : List VarId} {arg : TypeId} {params : List TypeId} {loc siteLoc : Location}

theorem Waits.mono (h : Waits p0 s cold given s') {given' : List VarId}
    (hg : ∀ v ∈ given, v ∈ given') : Waits p0 s cold given' s' :=
  fun hc hf l hl v hv hi hn => h hc hf l hl v hv hi fun hm => hn (hg v hm)

theorem Waits.apply (hw : Waits p0 s cold given s') :
    Waits p0 s cold (given ++ [v]) (s'.after (.param v t)) := by
  intro hc hf l hl u hu hi hn hk
  rw [mem_append, mem_singleton, not_or] at hn
  have hslot : ((s'.after (.param v t)).program.vars.get u).slot = (s'.program.vars.get u).slot :=
    (slot_setVarSlot s'.program v (.fixed t) u).trans (if_neg fun h => hn.2 h.1.symm)
  refine hw (hc.of_suffix suffix_after) (hf.of_suffix suffix_after) l hl u hu hi hn.1 ?_
  obtain ⟨x, hx⟩ := hk
  exact ⟨x, hslot.symm.trans hx⟩

theorem sites_fixing (s : PassState) (cold : ColdId) :
    ((s.after (.fixing cold true)).program.colds.lookup cold).sites =
      (s.program.colds.lookup cold).sites := by
  rw [show (s.after (.fixing cold true)).program.colds.lookup cold = _ from ColdTable.lookup_update
    (fun _ => by rfl) cold cold]
  split <;> rfl

theorem fresh_of_zip {names : List VarId} {done rest : List (VarId × TypeId)} (hnodup : names.Nodup)
    (hlen : names.length = params.length) (hxs : names.zip params = done ++ (v, t) :: rest) :
    v ∈ names ∧ t ∈ params ∧ v ∉ done.map Prod.fst := by
  obtain ⟨hv, ht⟩ := of_mem_zip (show (v, t) ∈ names.zip params by simp [hxs])
  refine ⟨hv, ht, fun hm => ?_⟩
  rw [← map_fst_zip (Nat.le_of_eq hlen), hxs, map_append, map_cons, nodup_append] at hnodup
  exact hnodup.2.2 v hm v mem_cons_self rfl

section Inv

variable (hs : Inv p0 s)
include hs

theorem waits_start (hfix : (s.program.colds.lookup cold).fixing = false) :
    Waits p0 s cold [] (s.after (.fixing cold true)) := by
  intro hc hf l hl v hv hi _ hk
  have hfresh := (hs.logged.throughout_cons.1 hf).1
  have hnone : (s.program.colds.lookup cold).signature = none := by
    simpa [Marks.Restarts, Program.marks] using hfresh
  have hun := hs.unhurried (hc.of_suffix suffix_after) (hf.of_suffix suffix_after)
  rw [← hs.alike.lambdaParams] at hv
  rw [← hs.alike.init] at hi
  exact hun.sites _ (hs.coherent.colds.rooted.forward_find cold) hnone hfix l hl v hv hi hk

/-- No two of the lambdas have a parameter in common. -/
theorem fresh_of_sites {done rest : List LambdaId}
    (hdone : (s.program.colds.lookup cold).sites = done ++ l :: rest) :
    l ∈ (s.program.colds.lookup cold).sites ∧ ∀ v ∈ (p0.lambdas.get l).params, v ∉ done.flatMap
      fun l => (p0.lambdas.get l).params := by
  have hnodup := hs.coherent.colds.nodup (s.program.colds.find cold)
  rw [show (s.program.colds.get (s.program.colds.find cold)).sites = _ from hdone, nodup_append]
    at hnodup
  refine ⟨by simp [hdone], fun v hv hm => ?_⟩
  obtain ⟨l', hl', hv'⟩ := mem_flatMap.1 hm
  rw [← hs.alike.lambdaParams] at hv hv'
  exact hnodup.2.2 l' hl' l mem_cons_self (hs.coherent.shaped.owners l l' v hv hv').symm

variable (hcold : s.program.colds.Valid cold)
include hcold

/-- What is done elsewhere gives no types to parameters of the lambdas that are being typed. -/
theorem Waits.step (hst : Step p0 (siteFocus s cold) (s.after (.fixing cold true)) s')
    (hw : Waits p0 s cold given s') (h : Step p0 {} s' s'') : Waits p0 s cold given s'' := by
  intro hc hf l hl v hv hi hn hk
  have hc' := hc.of_suffix h.log
  obtain ⟨_, hget⟩ := hst.still_fixing hs hcold hc'
  have hslot := h.untouched hc hf (s.program.colds.find cold)
    (by rw [hget]; exact hs.coherent.colds.rooted.forward_find cold) (by rw [hget]) l
    (by rw [hget]; exact hl) (by simp) v (by rwa [hst.inv.alike.lambdaParams])
    (by rwa [hst.inv.alike.init])
  obtain ⟨t, ht⟩ := hk
  exact hw hc' (hf.of_suffix h.log) l hl v hv hi hn ⟨t, hslot.symm.trans ht⟩

/-- A placeholder without lambdas is one that was never made. -/
theorem sites_ne_nil : (s.program.colds.lookup cold).sites ≠ [] := by
  obtain ⟨l, hl⟩ := hs.coherent.colds.filled cold hcold
  exact ne_nil_of_mem (hs.coherent.colds.placed l cold hl).2

end Inv

section Sites

variable (he : e.Good p0 G n e') (hs : Inv p0 s) (hcold : s.program.colds.Valid cold)
  (hst : Step p0 (siteFocus s cold) (s.after (.fixing cold true)) s1) (hs1 : Ready p0 G c s1)
  (hl : l ∈ (s.program.colds.lookup cold).sites) (hw : Waits p0 s cold given s1)
  (hz : p0.Awaits G s1.program z l) (hloc : p0.Spot loc)
include he hs hcold hst hs1 hl hw hz hloc

theorem fixParam_walks (hv : v ∈ (p0.lambdas.get l).params) (hn : v ∉ given)
    (harg : s1.program.types.Valid arg) (hsaid : Said p0 G z.owner arg s1) :
    Walks p0 G n (siteFocus s cold) c s1 (fixParam e siteLoc loc (v, arg))
      (fixParam e' siteLoc loc (v, arg)) fun _ s' => s'.program.VarKnown v ∧
      Waits p0 s cold (given ++ [v]) s' ∧ Accepting p0 s' [(v, arg)] := by
  have hrole := (hs1.wired.shaped.params l).2 v hv
  unfold fixParam
  refine .program ?_
  rw [hs1.alike.init]
  split
  · rename_i d hinit
    refine (declaredVar_walks hs1 hrole hinit (hz.types v hv d hinit) rfl siteLoc).bind
      fun declared s2 hst2 hs2 ⟨_, hslot, hsaid2⟩ => .widen ?_
    refine .discard ((assign_walks he hloc hs2 (hst2.keeps.types.valid harg)
      (hs2.coherent.varTypes v _ hslot) (hsaid.step hs1.inv hst2) hsaid2).post
      fun how s3 hst3 hs3 h =>
      ⟨hst3.keeps.vars v ⟨declared, hslot⟩, ?_, fun hc hf => forall_mem_singleton.2 ?_⟩)
    · exact (hw.step hs hcold hst (hst2.trans hst3)).mono fun _ h => mem_append_left _ h
    · refine ⟨declared, (hst3.steady hs2.inv hc hf).slots v declared hslot, fun hn => ?_,
        fun _ hplain => ⟨how, h.2 hplain⟩⟩
      rw [hs3.alike.init, hinit] at hn
      cases hn
  · rename_i hinit
    have hrole1 := (hs1.alike.role v).trans hrole
    have happly : Step p0 (siteFocus s cold) s1 (s1.after (.param v arg)) := by
      refine .apply hs1.inv harg hl (by rwa [hs1.alike.lambdaParams]) (by rwa [hs1.alike.init])
        (fun hc => ?_) fun hc hf => hw hc hf l hl v hv hinit hn
      obtain ⟨_, hget⟩ := hst.still_fixing hs hcold hc
      exact ⟨s.program.colds.find cold, by rw [hget], by rw [hget]; exact hl⟩
    refine (Walks.write hs1 happly
      (hs1.sound.setVar hs1.charted hs1.coherent (fun _ => ⟨arg, rfl⟩)
        (fun d _ h => nomatch hrole1.symm.trans h) (fun d _ h => nomatch hrole.symm.trans h)
        fun u hu r hhome => ?_)).post fun _ s2 hst2 hs2 hafter => ?_
    · cases hu
      cases (Awaits.home hz hv).unique hs1.wired.shaped hs1.charted hhome
      exact hsaid
    · subst hafter
      have hslot : ((s1.after (.param v arg)).program.vars.get v).slot = .fixed arg :=
        (slot_setVarSlot s1.program v (.fixed arg) v).trans
        (if_pos ⟨rfl, valid_of_role hrole1 (by simp)⟩)
      refine ⟨⟨arg, hslot⟩, hw.apply, fun _ _ =>
        forall_mem_singleton.2 ⟨arg, hslot, fun _ => .inl rfl, fun hne => ?_⟩⟩
      exact absurd ((hs2.alike.init v).trans hinit) hne

variable (hn : ∀ v ∈ (p0.lambdas.get l).params, v ∉ given)
  (harg : ∀ t ∈ params, s1.program.types.Valid t)
include hn harg

theorem fixParams_walks (hlen : (p0.lambdas.get l).params.length = params.length)
    (hsaid : ∀ t ∈ params, Said p0 G z.owner t s1) :
    Walks p0 G n (siteFocus s cold) c s1
      (((p0.lambdas.get l).params.zip params).forM (fixParam e siteLoc loc))
      (((p0.lambdas.get l).params.zip params).forM (fixParam e' siteLoc loc)) fun _ s' =>
      (∀ v ∈ (p0.lambdas.get l).params, s'.program.VarKnown v) ∧
      Waits p0 s cold (given ++ (p0.lambdas.get l).params) s' ∧
      Accepting p0 s' ((p0.lambdas.get l).params.zip params) := by
  have hnames : ((p0.lambdas.get l).params.zip params).map Prod.fst = (p0.lambdas.get l).params :=
    map_fst_zip (Nat.le_of_eq hlen)
  refine (Walks.forEach (I := fun done s' => (∀ v ∈ done.map Prod.fst, s'.program.VarKnown v) ∧
    Waits p0 s cold (given ++ done.map Prod.fst) s' ∧ Accepting p0 s' done) hs1
    ⟨by simp, by simpa using hw, fun _ _ => forall_mem_nil _⟩
    fun done x rest s2 hxs hst2 hs2 ⟨hdone, hw2, hacc⟩ => ?_).post
    fun _ s' _ _ h => by rwa [hnames] at h
  obtain ⟨v, arg⟩ := x
  obtain ⟨hmem, harg', hfresh⟩ := fresh_of_zip (hs1.wired.shaped.params l).1 hlen hxs
  refine (fixParam_walks he hs hcold (hst.trans hst2) hs2 hl hw2 (hz.keeps hst2.keeps) hloc hmem
    (fun hm => ?_) (hst2.keeps.types.valid (harg arg harg'))
    ((hsaid arg harg').step hs1.inv hst2)).post fun _ s3 hst3 _ ⟨hk, hw3, hacc3⟩ =>
    ⟨?_, by simpa using hw3, fun hc hf =>
      forall_mem_append.2 ⟨hacc.step hs2.inv hst3 hc hf, hacc3 hc hf⟩⟩
  · exact (mem_append.1 hm).elim (hn v hmem) hfresh
  · rw [map_append]
    exact forall_mem_append.2
      ⟨fun u hu => hst3.keeps.vars u (hdone u hu), forall_mem_singleton.2 hk⟩

theorem fixSite_walks {result : Option TypeId} (hr : ∀ t ∈ result, s1.program.types.Valid t)
    (hsaid : ∀ t ∈ params, Said p0 G o t s1) (hrs : ∀ t ∈ result, Said p0 G o t s1)
    (hformals : p0.Sealed G s1.program → p0.formals z.owner = p0.formals o) :
    Walks p0 G n (siteFocus s cold) c s1 (fixSite e params loc result l)
      (fixSite e' params loc result l) fun r s' =>
      (r.isSome ∧ ∀ t ∈ r, s'.program.types.Valid t ∧ Said p0 G o t s') ∧ s'.program.LambdaKnown l ∧
      Waits p0 s cold (given ++ (p0.lambdas.get l).params) s' ∧ (p0.lambdas.get l).params.length =
      params.length ∧ Accepting p0 s' ((p0.lambdas.get l).params.zip params) := by
  unfold fixSite
  refine .program (.locOf ?_)
  dsimp only
  rw [hs1.alike.lambdaParams, hs1.alike.lambdaOwner, hs1.alike.lambdaBody]
  split
  · exact .fail hs1 (by nofun) hloc
  rename_i hlen
  rw [not_not] at hlen
  refine (fixParams_walks he hs hcold hst hs1 hl hw hz hloc hn harg hlen fun t ht =>
    (hsaid t ht).along fun hsealed => (hformals hsealed).symm).bindIn
    fun _ s2 hst2 hs2 ⟨hparams, hw2, hacc⟩ => ?_
  refine (body_walks he hs2 (hz.keeps hst2.keeps) hparams).bind
    fun u s3 hst3 hs3 ⟨hslot, hsaid3⟩ => .widen ?_
  have hst' := hst2.trans hst3.widen
  have hbody : Said p0 G o u s3 := hsaid3.along fun hsealed =>
    hformals (hsealed.back hst'.keeps hs1.coherent)
  have hfin {s' : PassState} (h : Step p0 {} s3 s') : s'.program.LambdaKnown l ∧
      Waits p0 s cold (given ++ (p0.lambdas.get l).params) s' ∧ (p0.lambdas.get l).params.length =
      params.length ∧ Accepting p0 s' ((p0.lambdas.get l).params.zip params) := by
    refine ⟨⟨fun v hv => (hst3.trans h).keeps.vars v (hparams v ?_), ?_⟩,
      hw2.step hs hcold (hst.trans hst2) (hst3.trans h), hlen, hacc.step hs2.inv (hst3.trans h)⟩
    · rwa [h.inv.alike.lambdaParams] at hv
    · rw [h.inv.alike.lambdaBody]
      exact ⟨u, h.keeps.slots _ _ hslot⟩
  split
  · exact .pure hs3 ⟨⟨rfl, fun t ht => Option.some.inj ht ▸ ⟨hs3.valid_slot hslot, hbody⟩⟩,
      hfin (.refl hs3.inv)⟩
  · rename_i previous
    refine (unify_walks hs3 (hst'.keeps.types.valid (hr previous rfl)) (hs3.valid_slot hslot)
      ((hrs previous rfl).step hs1.inv hst') hbody he (hs1.spot_of_mem hz.body.mem)).bind
      fun t s4 hst4 hs4 ht => .pure hs4 ⟨⟨rfl, fun u hu => ?_⟩, hfin hst4⟩
    exact Option.some.inj hu ▸ ⟨ht.1, ht.2.1⟩

end Sites

structure Fixes (p0 : Program) (G : Atlas) (o : Option ClassId) (sites : List LambdaId) (t : TypeId)
    (s : PassState) : Prop where
  known : ∀ l ∈ sites, s.program.LambdaKnown l
  lambda : ∃ params result, s.program.types.get t = .lambda params result
  fitted : p0.marks.Calm s.writes → p0.marks.Fresh s.writes → ∀ l ∈ sites, s.program.Fitted t l
  said : Said p0 G o t s

variable (hs : Ready p0 G c s) (hcold : s.program.colds.Valid cold)
  (hfix : (s.program.colds.lookup cold).fixing = false)
  (harg : ∀ t ∈ params, s.program.types.Valid t) (hwait : p0.Awaited G s.program o cold)
  (hsaid : ∀ t ∈ params, Said p0 G o t s) (hloc : p0.Spot loc)
include hs hcold hfix harg hwait hsaid hloc

theorem fixSites_walks (he : e.Good p0 G n e') :
    Walks p0 G n (siteFocus s cold) c (s.after (.fixing cold true)) (fixSites e cold params loc)
      (fixSites e' cold params loc) (Fixes p0 G o (s.program.colds.lookup cold).sites) := by
  have hstart : Step p0 (siteFocus s cold) s (s.after (.fixing cold true)) :=
    .startFixing hs.inv hcold hfix
  have hs0 : Ready p0 G c (s.after (.fixing cold true)) :=
    hs.step hstart (hs.sound.updateCold hs.charted hs.coherent (fun _ => by rfl) (fun _ => by rfl)
      fun _ _ h => .inl (by exact h)) rfl
  unfold fixSites
  refine .program ?_
  rw [sites_fixing]
  refine Walks.bindIn (Walks.foldlM (I := fun done r s' => (∀ l ∈ done, s'.program.LambdaKnown l) ∧
    (done ≠ [] → r.isSome) ∧ (∀ t ∈ r, s'.program.types.Valid t ∧ Said p0 G o t s') ∧
    Waits p0 s cold (done.flatMap fun l => (p0.lambdas.get l).params) s' ∧
    ∀ l ∈ done, (p0.lambdas.get l).params.length = params.length ∧
    Accepting p0 s' ((p0.lambdas.get l).params.zip params)) hs0
    ⟨by simp, by simp, by simp, waits_start hs.inv hfix, by simp⟩
    fun done l rest r s1 hdone hst1 hs1 ⟨hlit, _, hr, hw, hacc⟩ => ?_)
    fun r s1 hst1 hs1 ⟨hlit, hsome, hr, _, hacc⟩ => ?_
  · have hst := hstart.trans hst1
    obtain ⟨hl, hfresh⟩ := fresh_of_sites hs.inv hdone
    obtain ⟨own, hown, _⟩ := hs.coherent.colds.sites _ l hl
    obtain ⟨z, hz⟩ := hs1.sound.placed l own (hst.keeps.lambdas l own hown)
    refine (fixSite_walks he hs.inv hcold hst1 hs1 hl hw hz hloc hfresh
      (fun t ht => hst.keeps.types.valid (harg t ht)) (fun t ht => (hr t ht).1)
      (fun t ht => (hsaid t ht).step hs.inv hst) (fun t ht => (hr t ht).2) fun hsealed => ?_).post
      fun r s2 hst2 _ ⟨hr2, hlit2, hw2, hlen2, hacc2⟩ =>
      ⟨?_, fun _ => hr2.1, hr2.2, by simpa using hw2, ?_⟩
    · have hback := hsealed.back hst.keeps hs.coherent
      rw [← hz.owner]
      exact (hwait hback).sites hs.sound hs.coherent hs.alike hback hl
    · exact forall_mem_append.2 ⟨fun l' hl' => hst2.keeps.lambdaKnown (hlit l' hl'),
        forall_mem_singleton.2 hlit2⟩
    · exact forall_mem_append.2 ⟨fun l' hl' => ⟨(hacc l' hl').1, (hacc l' hl').2.step hs1.inv hst2⟩,
        forall_mem_singleton.2 ⟨hlen2, hacc2⟩⟩
  · obtain ⟨u, rfl⟩ := Option.isSome_iff_exists.1 (hsome (sites_ne_nil hs.inv hcold))
    obtain ⟨hu, hus⟩ := hr u rfl
    have hst := hstart.trans hst1
    refine (normalize_walks hs1 hu hus).bind fun u s2 hst2 hs2 ⟨hu, _, hus⟩ => ?_
    refine Walks.bind (Walks.mapM
      (P := fun t u s => s.program.types.Valid u ∧ s.program.Normal t u ∧ Said p0 G o u s) hs2
      (fun _ _ _ _ hs h ht =>
        ⟨h.keeps.types.valid ht.1, ht.2.1.keeps h.keeps (h.signatures rfl), ht.2.2.step hs.inv h⟩)
      fun t ht s3 hst3 hs3 => ?_) fun ts s3 hst3 hs3 hts => ?_
    · have hst' := hst.trans (hst2.trans hst3).widen
      exact normalize_walks hs3 (hst'.keeps.types.valid (harg t ht)) ((hsaid t ht).step hs.inv hst')
    · have hts' : ∀ t ∈ ts, s3.program.types.Valid t ∧ Said p0 G o t s3 :=
        forall_of_forall₂ hts fun _ _ h => ⟨h.1, h.2.2⟩
      refine (Walks.intern hs3
        (holds_lambda.2 ⟨fun t ht => (hts' t ht).1, hst3.keeps.types.valid hu⟩) nofun nofun).post
        fun t s4 hst4 hs4 ⟨_, ht, hget⟩ => ?_
      have hst' := (hst2.trans hst3).widen.trans hst4
      refine ⟨fun l hl => hst'.keeps.lambdaKnown (hlit l hl), ⟨ts, u, hget⟩,
        fun hcalm hfresh l hl => ?_, .make ht hget rfl nofun fun x hx => ?_⟩
      · obtain ⟨hlen, hacc⟩ := hacc l hl
        have hacc4 := hacc.step hs1.inv hst' hcalm hfresh
        rw [← hs4.alike.lambdaParams] at hlen hacc4
        exact ⟨ts, u, hget, forall₂_trans (forall₂_iff_zip.2 ⟨hlen, fun hx => hacc4 _ hx⟩) hts
          fun v a b hv hab => hv.normal hs4.coherent
          (hab.2.1.keeps hst4.keeps (hst4.signatures rfl))⟩
      · rcases mem_append.1 hx with hx | hx
        · exact (hts' x hx).2.step hs3.inv hst4
        · exact mem_singleton.1 hx ▸ hus.step hs2.inv (hst3.widen.trans hst4)

/-- What is left when the placeholder is no longer marked, but has no signature yet, is no state to
go on from. While it is marked, one less is left to do. -/
theorem marking_agrees (he : ∀ j, j < n → e.Good p0 G j e') (hn : p0.remaining s.program ≤ n) :
    Agrees s (marking cold (fixSites e cold params loc) c)
      (marking cold (fixSites e' cold params loc) c)
      (fun t s' => ∃ s1, s' = s1.after (.fixing cold false) ∧
        Step p0 (siteFocus s cold) (s.after (.fixing cold true)) s1 ∧ Ready p0 G c s1 ∧
        Fixes p0 G o (s.program.colds.lookup cold).sites t s1) (Halted p0) := by
  have hless : p0.remaining (s.after (.fixing cold true)).program + 1 = _ :=
    remaining_fixing_true p0 hs.coherent.colds.rooted hcold hfix
  have hsites := fixSites_walks hs hcold hfix harg hwait hsaid hloc (he _ (by omega))
    (Nat.le_refl _)
  refine agrees_write (Agrees.bind (m := tryCatch (fixSites e cold params loc) (fun e => do
    write (.fixing cold false)
    throw e) c) (Agrees.tryCatch hsites fun fault s' h => ?_) fun t s1 h => ⟨rfl, s1, rfl, h⟩)
  have hk := keeps_updateCold (g := fun x => { x with fixing := false }) h.coherent
    (fun _ => rfl) cold
  refine ⟨⟨h.after_kept (Marks.kept_fixing s'.program.marks cold false) nofun, ?_⟩,
    ⟨h.lasting.neat.congr hk.alike rfl rfl hk.colds, h.lasting.fields⟩, h.entered, h.spot, h.whole⟩
  exact coherent_updateCold (g := fun x => { x with fixing := false }) h.coherent (fun _ => rfl)
    (fun _ => rfl) (fun _ _ => .inl) cold

end Fixing

section Signing

variable {params : List TypeId} {loc : Location} (hs : Ready p0 G c s)
  (hcold : s.program.colds.Valid cold) (hloc : p0.Spot loc)
include hs hcold hloc

theorem fixCold_walks (he : ∀ j, j < n → e.Good p0 G j e')
    (harg : ∀ t ∈ params, s.program.types.Valid t) (hwait : p0.Awaited G s.program o cold)
    (hsaid : ∀ t ∈ params, Said p0 G o t s) :
    Walks p0 G n { colds := [cold] } c s (fixCold e cold params loc) (fixCold e' cold params loc)
      fun t s' => (s'.program.colds.lookup cold).signature = some t ∧ Said p0 G o t s' := by
  unfold fixCold
  refine .program ?_
  dsimp only
  split
  · exact .fail hs (by nofun) hloc
  rename_i hfix
  rw [Bool.not_eq_true] at hfix
  intro hn
  refine Agrees.bind (m := marking cold (fixSites e cold params loc) c)
    (marking_agrees hs hcold hfix harg hwait hsaid hloc he hn) fun t s' ⟨s1, hs', hst1, hs1, h⟩ =>
    agrees_write ?_
  subst hs'
  have hk := (Step.startFixing hs.inv hcold hfix |>.trans hst1).keeps
  have hk1 : s1.program.Keeps (s1.after (.fixing cold false)).program :=
    keeps_updateCold hs1.coherent (fun _ => by rfl) cold
  have hcoherent : (s1.after (.fixing cold false)).program.Coherent :=
    coherent_updateCold hs1.coherent (fun _ => by rfl) (fun _ => by rfl)
    (fun _ _ hx => .inl (by exact hx)) cold
  have hd1 : p0.Sound G (s1.after (.fixing cold false)).program :=
    hs1.sound.updateCold hs.charted hs1.coherent (fun _ => by rfl) (fun _ => by rfl) fun _ _ h =>
    .inl (by exact h)
  have hsaid1 := h.said.keeps hk1 hs1.coherent
  have hst2 := Step.sign hs.inv hcold hfix hst1 h.known h.lambda h.fitted
  have hd2 : p0.Sound G ((s1.after (.fixing cold false)).after (.signature cold t)).program := by
    refine hd1.updateCold hs.charted hcoherent (fun _ => by rfl) (fun _ => by rfl) fun _ u hu =>
      .inr fun l hl => ?_
    cases hu
    refine hsaid1.along fun hsealed => Eq.symm ?_
    exact ((hwait (hsealed.back (hk.trans hk1) hs.coherent)).keeps (hk.trans hk1)).sites hd1
      hcoherent (hs1.alike.trans hk1.alike) hsealed hl
  have hs2 : Ready p0 G c ((s1.after (.fixing cold false)).after (.signature cold t)) :=
    { hs with
      inv := hst2.inv
      sound := hd2
      once := ⟨hs1.once.nodup, hs1.once.begun⟩
      this := fun i hi => hst2.keeps.insts.valid (hs.this i hi) }
  have hlast : Goes p0 G n {} c ((s1.after (.fixing cold false)).after (.signature cold t)) (do
      emit (.coldFixed ((← program).colds.find cold).index ((← program).typeName t))
      return t) fun t s' => (s'.program.colds.lookup cold).signature = some t ∧
        Said p0 G o t s' := by
    refine .program (.program ((Walks.emit hs2 rfl).bind fun _ s3 hst3 hs3 hsame => .pure hs3 ?_))
    rw [Said, hsame]
    refine ⟨?_, hsaid1.keeps (keeps_updateCold hcoherent (fun _ => by rfl) cold) hcoherent⟩
    have hvalid := hs2.coherent.colds.rooted.valid_find (Nat.lt_of_lt_of_le hcold hst2.keeps.colds)
    have hfind : ((s1.after (.fixing cold false)).after (.signature cold t)).program.colds.find
      cold = _ := ColdTable.find_update (fun _ => by rfl) cold cold
    rw [hfind] at hvalid
    refine (congrArg Cold.signature (ColdTable.lookup_update (fun _ => by rfl) cold cold)).trans ?_
    rw [if_pos ⟨rfl, Arena.valid_modify.1 hvalid⟩]
  exact (hlast (Nat.le_trans hst2.winds.remaining hn)).imp
    (fun _ _ h => ⟨hst2.trans h.1.widen, h.2⟩) fun _ _ => id

theorem callCold_walks (he : e.Good p0 G n e') {args : List NodeId} (hat : At p0 G s.program c z)
    (hwait : p0.Awaited G s.program z.owner cold) (hargs : ∀ a ∈ args, p0.ScopedAt G c.chain z a) :
    Walks p0 G n {} c s (callCold e cold args loc) (callCold e' cold args loc) fun r s' =>
      (∀ a ∈ args, s'.program.Known a) ∧ Forall₂ (p0.Passed s'.program) args r.1 ∧
      s'.program.types.Valid r.2 ∧ Said p0 G z.owner r.2 s' := by
  unfold callCold
  refine .program ?_
  extract_lets apply apply'
  have happly {s1 : PassState} (hst1 : Step p0 {} s s1) (hs1 : Ready p0 G c s1) {t : TypeId}
      (ht : (s1.program.colds.lookup cold).signature = some t) (hsaid : Said p0 G z.owner t s1) :
      Walks p0 G n {} c s1 (apply t) (apply' t) fun r s' => (∀ a ∈ args, s'.program.Known a) ∧
      Forall₂ (p0.Passed s'.program) args r.1 ∧ s'.program.types.Valid r.2 ∧
      Said p0 G z.owner r.2 s' := by
    obtain ⟨hvalid, params, result, hget⟩ := hs1.signature ht
    have hsig := signature?_of_lambda hget
    obtain ⟨hps, hrs⟩ := hsaid.params hsig
    refine Walks.bind (.signatureOf hs1 hvalid hsig _ _) fun sig s2 _ _ ⟨hs2, hsame, hp, hr⟩ => ?_
    subst hs2 hsame
    exact (arguments_walks he hs1 (hat.step hst1) hp hps hargs hloc).bind
      fun args' s3 hst3 hs3 ⟨hknown, _, hpassed⟩ =>
      .pure hs3 ⟨hknown, hpassed, hst3.keeps.types.valid hr, hrs.step hs1.inv hst3⟩
  split
  · rename_i t ht
    exact happly (.refl hs.inv) hs ht (hwait.signature hs ht)
  · rename_i hnone
    -- Its arguments may have signed the placeholder, but the call began before that.
    refine Walks.imp (f := { colds := [cold] })
      (Walks.bind (Walks.mapM (P := fun _ t s => s.program.types.Valid t ∧ Said p0 G z.owner t s) hs
        (fun _ _ _ _ hs h ht => ⟨h.keeps.types.valid ht.1, ht.2.step hs.inv h⟩)
        fun a ha s1 hst1 hs1 => ?_) fun ts s1 hst1 hs1 hts => ?_) fun _ _ h _ hQ =>
      ⟨h.unsigned hnone, hQ⟩
    · exact (he.find hs1 (hat.step hst1) (hargs a ha)).bind fun t s2 _ hs2 ⟨ht, hsaid⟩ =>
        (Walks.pinned hs2 (hs2.valid_slot ht) hsaid).post fun _ _ _ _ h => ⟨h.2.1, h.2.2.2⟩
    · have hts' : ∀ t ∈ ts, s1.program.types.Valid t ∧ Said p0 G z.owner t s1 :=
        forall_of_forall₂ hts fun _ _ h => h
      refine (he.fix hloc hs1 (Nat.lt_of_lt_of_le hcold hst1.keeps.colds)
        (fun t ht => (hts' t ht).1) (hwait.step hs.inv hst1) fun t ht => (hts' t ht).2).bindIn
        fun t s2 hst2 hs2 ht => ?_
      exact .widen (happly ((hst1.widen.trans hst2).unsigned hnone) hs2 ht.1 ht.2)

end Signing

end ClassLang.Typing

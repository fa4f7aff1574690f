import ClassLang.Proofs.Resolved
import ClassLang.Proofs.Rests
import ClassLang.Proofs.Scope.Links

namespace ClassLang.Program

open Arena List

variable {p0 p : Program} {S : NodeId → Prop} {e : Setting} {i x : NodeId} {c : ClassId}

theorem owner_of_places {form : Form} {x : Setting × NodeId} (hx : x ∈ p.places e i form) :
    x.1.owner = e.owner := by
  have hmap {d : Setting} (hd : d.owner = e.owner) {body : List NodeId} (hx : x ∈ body.map (d, ·)) :
      x.1.owner = e.owner := by
    obtain ⟨y, _, rfl⟩ := mem_map.1 hx
    exact hd
  unfold places at hx
  split at hx
  · exact hmap (d := e.entering i) rfl hx
  · exact hmap (d := e.entering i) rfl hx
  · exact (mem_append.1 hx).elim (hmap rfl) (hmap (d := e.seeing _) rfl)
  · rcases mem_cons.1 hx with rfl | hx
    · rfl
    · obtain rfl := mem_singleton.1 hx
      rfl
  · exact hmap (d := (e.seeing _).closed) rfl hx
  · exact hmap rfl hx

theorem Scoped.part (h : p.Scoped S e i) (hx : x ∈ p.inner (p.form i)) :
    ∃ d, d.owner = e.owner ∧ p.Scoped S d x := by
  cases h with
  | node _ _ hparts =>
    obtain ⟨d, hd⟩ := exists_place hx e i
    exact ⟨d, owner_of_places hd, hparts _ hd⟩

namespace Resolve

variable {sc : Scope} {vs : List VarId}

theorem optional_rests {visit : NodeId → Resolve Unit} {o : Option NodeId}
    (h : ∀ x ∈ o.toList, Rests sc p (visit x) ()) : Rests sc p (optional visit o) () := by
  cases o with
  | none => exact .pure ()
  | some x => exact h x (mem_singleton_self x)

theorem typeRef_rests {inst : InstId} (h : p.Refers i inst) : Rests sc p (typeRef i) inst := by
  obtain ⟨name, target, args, hi⟩ := h
  have hvalid : p.nodes.Valid i := valid_of_form hi nofun
  obtain ⟨n, hn⟩ := Nat.exists_eq_succ_of_ne_zero
    (Nat.ne_of_gt (Nat.lt_of_le_of_lt (Nat.zero_le _) hvalid))
  refine .program ?_
  rw [hn]
  unfold typeRefUpTo
  refine .program (.program ?_)
  rw [hi]
  exact .pure inst

theorem lambdaParams_rests {visit : NodeId → Resolve Unit} {body : NodeId}
    (h : ∀ sc' : Scope, sc'.owner = sc.owner → ∀ x ∈ p.paramTypes vs ++ [body], Rests sc' p
      (visit x) ()) : Rests sc p (lambdaParams visit (visit body) vs) () := by
  induction vs generalizing sc with
  | nil => exact h sc rfl body mem_cons_self
  | cons v vs ih =>
    rw [paramTypes_cons, append_assoc] at h
    refine .program (.bind (optional_rests fun x hx => h sc rfl x (mem_append_left _ hx))
      (.withReader (ih ?_)))
    exact fun sc' howner x hx => h sc' howner x (mem_append_right _ hx)

/-- Where all names are bound, a visit changes nothing. The induction is on the fuel, and where
there is none left nothing is visited. -/
theorem visitUpTo_rests (n : Nat) (h : p.Scoped S e i) (howner : e.owner = sc.owner) :
    Rests sc p (visitUpTo n i) () := by
  induction n generalizing sc e i with
  | zero => exact .pure ()
  | succ n ih =>
    have hpart {sc' : Scope} (hsc : sc'.owner = sc.owner) (x : NodeId)
        (hx : x ∈ p.inner (p.form i)) : Rests sc' p (visitUpTo n x) () := by
      obtain ⟨d, hd, hscoped⟩ := h.part hx
      exact ih hscoped (hd.trans (howner.trans hsc.symm))
    have hbound : p.Bound e (p.form i) := by
      cases h
      assumption
    unfold visitUpTo
    refine .program ?_
    extract_lets loc
    refine .program ?_
    split
    · rename_i hi
      rw [hi] at hbound
      exact hbound.elim
    · rename_i hi
      rw [hi] at hbound
      exact hbound.elim
    · rename_i callee args hi
      rw [hi] at hpart
      refine .bind (.forM fun x hx => hpart rfl x (mem_cons_of_mem _ hx)) (.program ?_)
      split
      · rename_i name hname
        obtain ⟨d, _, _, hbound, _⟩ := h.part (hi ▸ mem_cons_self : callee ∈ p.inner (p.form i))
        rw [hname] at hbound
        exact hbound.elim
      · exact hpart rfl callee mem_cons_self
    · rename_i name target args inst hi
      rw [hi] at hbound
      obtain ⟨x, rfl, _⟩ := hbound
      exact .bind (typeRef_rests ⟨name, target, args, hi⟩) (.pure ())
    · rename_i v body hi
      rw [hi] at hpart
      refine .program (.bind (optional_rests fun x hx => ?_) (.withReader (.forM fun x hx => ?_)))
      · exact hpart rfl x (mem_append_left _ hx)
      · exact hpart (by rfl) x (mem_append_right _ hx)
    · rename_i cond yes b hi
      rw [hi] at hpart
      refine .bind (hpart rfl cond mem_cons_self) (.withReader (hpart (by rfl) yes ?_))
      exact mem_cons_of_mem _ (mem_singleton_self _)
    · rename_i l hi
      rw [hi] at hpart
      exact .program (lambdaParams_rests fun sc' hsc x hx => hpart hsc x hx)
    · rename_i hi
      rw [hi] at hbound
      obtain ⟨c, hc⟩ := Option.isSome_iff_exists.1 hbound
      refine .read ?_
      rw [← howner, hc]
      exact .pure ()
    · exact .forM fun x hx => hpart rfl x (mem_inner_of_children hx)

theorem visit_rests (h : p.Scoped S e i) (howner : e.owner = sc.owner) : Rests sc p (visit i) () :=
  .program (visitUpTo_rests _ h howner)

theorem callable_rests {result body : Option NodeId} (hnames : p.NamesApart vs)
    (hnew : ∀ v ∈ vs, ∀ u ∈ sc.locals, (p.vars.get u).name ≠ (p.vars.get v).name)
    (h : ∀ sc' : Scope, sc'.owner = sc.owner →
      ∀ x ∈ p.paramTypes vs ++ (result.toList ++ body.toList), Rests sc' p (visit x) ()) :
    Rests sc p (callable result body vs) () := by
  induction vs generalizing sc with
  | nil =>
    refine .bind (optional_rests fun x hx => ?_) (optional_rests fun x hx => ?_)
    · exact h sc rfl x (mem_append_right _ (mem_append_left _ hx))
    · exact h sc rfl x (mem_append_right _ (mem_append_right _ hx))
  | cons v vs ih =>
    rw [paramTypes_cons, append_assoc] at h
    obtain ⟨hv, hvs⟩ := nodup_cons.1 hnames
    have hfind : sc.localNamed? p (p.vars.get v).name = none := by
      rw [Scope.localNamed?, find?_eq_none]
      intro u hu
      simpa using hnew v mem_cons_self u hu
    unfold callable
    refine .program (.bind (optional_rests fun x hx => h sc rfl x (mem_append_left _ hx))
      (.read (.program ?_)))
    rw [hfind, if_neg (by simp)]
    refine .withReader (ih hvs ?_ fun sc' hsc x hx => h sc' hsc x (mem_append_right _ hx))
    intro w hw u hu
    rcases mem_cons.1 hu with rfl | hu
    · exact fun he => hv (mem_map.2 ⟨w, hw, he.symm⟩)
    · exact hnew w (mem_cons_of_mem v hw) u hu

theorem register_rests {name : NameId} {g : Global} {loc : Location}
    (h : p.globals.lookup name = some g) : Rests sc p (register name g loc) () := by
  unfold register
  refine .program (.bind (.edit ?_) ?_)
  · rw [Assoc.put_of_lookup h]
  · rw [h, if_neg (by simp)]
    exact .pure ()

theorem registerModule_rests {m : ModuleId} (h : Registered p m) :
    Rests sc p (registerModule m) () := by
  unfold registerModule
  refine .program (.bind (.forM fun c hc => .program ?_) (.forM fun f hf => .program ?_))
  · exact register_rests (h.1 c hc)
  · exact register_rests (h.2 f hf)

theorem bound_rests {a : ParamId} (h : p.Bounded a) : Rests sc p (bound a) () := by
  unfold bound
  refine .program ?_
  extract_lets decl
  split
  · rename_i d hd
    obtain ⟨inst, c, href, _, hget, hparams, hbound⟩ := h d hd
    refine .bind (.tryCatch (typeRef_rests href)) (.program ?_)
    rw [hget]
    refine .program ?_
    have hsame : { p.params.get a with bound := some c } = p.params.get a := by rw [← hbound]
    rw [hparams, if_pos (by rfl)]
    refine .edit ?_
    rw [Arena.modify_eq_self hsame]
  · exact .pure ()

theorem header_rests (hparams : ∀ a ∈ (p.classes.get c).params, p.Bounded a)
    (hbases : ∀ k, p.Based c k) : Rests sc p (header c) () := by
  unfold header inClass
  refine .program (.withReader
    (.program (.bind (.forM fun a ha => bound_rests (hparams a ha))
      (.program (.forM fun x hx => ?_)))))
  obtain ⟨b, k⟩ := x
  have hb := mem_zipIdx_iff_getElem?.1 hx
  obtain ⟨inst, hinst, href⟩ := hbases k b hb
  refine .bind (typeRef_rests href) (.edit ?_)
  have hsame : setBaseInst k inst (p.classes.get c) = p.classes.get c := by
    have hmodify : (p.classes.get c).bases.modify k (fun b => { b with inst := some inst }) =
        (p.classes.get c).bases := by
      apply ext_getElem?
      intro j
      by_cases hj : k = j
      · subst hj
        simp [hb, ← hinst]
      · simp [hj]
    rw [setBaseInst, hmodify]
  rw [modifyClass, Arena.modify_eq_self hsame]

theorem flatten_rests (h : ∀ c, p.classes.Valid c → (p.classes.get c).flattened = true) :
    Rests sc p (liftM (Flatten.classes p.classes.ids) : Resolve Unit) () := by
  have hclass (n : Nat) (c : ClassId) (hc : c ∈ p.classes.ids) (s : PassState)
      (hs : s.program = p) : Flatten.classUpTo (n + 1) [] c s = .ok () s := by
    subst hs
    have hflat := h c (mem_ids.1 hc)
    show (if (s.program.classes.get c).flattened then pure () else _ : Pass NameCause Unit) s = _
    rw [if_pos hflat]
    rfl
  have hloop (n : Nat) (ids : List ClassId) (hids : ids ⊆ p.classes.ids) (s : PassState)
      (hs : s.program = p) : ids.forM (Flatten.classUpTo (n + 1) []) s = .ok () s := by
    induction ids with
    | nil => rfl
    | cons c ids ih =>
      show EStateM.bind (Flatten.classUpTo (n + 1) [] c)
        (fun _ => ids.forM (Flatten.classUpTo (n + 1) [])) s = _
      rw [EStateM.bind, hclass n c (hids mem_cons_self) s hs]
      exact ih fun d hd => hids (mem_cons_of_mem c hd)
  intro s hs
  refine ⟨s, ?_, hs⟩
  have hs' : s.program = p := hs
  subst hs'
  exact hloop _ _ (Subset.refl _) s rfl

theorem override_rests {base : ClassId} {m target : MethodId} {path : List InstId}
    (hlookup : (p.classes.get base).members.lookup (p.methods.get m).name = .one
      ⟨.method target, path⟩) (hm : (p.methods.get m).overrides = some target) :
    Rests sc p (override c base m) () := by
  have hsame : { p.methods.get m with overrides := some target } = p.methods.get m := by rw [← hm]
  unfold override
  refine .program ?_
  split
  rename_i hdecl
  rw [hdecl] at hlookup
  refine .program ?_
  rw [hlookup]
  refine .edit ?_
  rw [modifyMethod, Arena.modify_eq_self hsame]

theorem overrides_rests (h : p0.Bindings p) (ho : p.Owned) (c : ClassId) :
    Rests sc p (overrides c) () := by
  refine .program (.forM fun b hb => .program ?_)
  split
  · exact .pure ()
  · rename_i base hbase
    refine .forM fun m hm => ?_
    obtain ⟨k, hk⟩ := mem_iff_getElem?.1 hb
    obtain ⟨_, howner, hindex⟩ := ho.overloads c k b hk m hm
    obtain ⟨target, htarget⟩ := Option.isSome_iff_exists.1 (h.given c b hb m hm)
    obtain ⟨k', b', x, path, hk', hb', hx, hlookup⟩ := h.found m target htarget
    cases hindex.symm.trans hk'
    rw [howner] at hb'
    cases hk.symm.trans hb'
    cases (classOf?_of_baseOf? hx).symm.trans hbase
    exact override_rests hlookup htarget

section Bodies

variable (h : p0.Bindings p)
include h

theorem root_rests {r : Root} (hr : r ∈ p0.bodyRoots) (howner : p0.rootOwner r = sc.owner)
    (hx : x ∈ p.rootParts r) : Rests sc p (visit x) () := by
  rw [h.stage.akin.rootParts] at hx
  obtain ⟨ts, _, hscoped⟩ := h.settled r hr x hx
  exact visit_rests hscoped howner

theorem classBodies_rests (hs : p0.Owned)
    (hmethods : ∀ m ∈ (p.classes.get c).allMethods, p.NamesApart (p.methods.get m).params)
    (hc : p0.classes.Valid c) : Rests sc p (classBodies c) () := by
  have hakin := h.stage.akin
  have hroots {r : Root}
    (hr : r ∈ (p0.classes.get c).fields.map .field ++ (p0.classes.get c).allMethods.map .method) :
    r ∈ p0.bodyRoots := mem_append_left _ (mem_flatMap.2 ⟨c, mem_ids.2 hc, hr⟩)
  unfold classBodies inClass
  refine .program (.withReader
    (.program (.bind (.forM fun f hf => .program (optional_rests fun x hx => ?_))
      (.program (.forM fun m hm => .program ?_)))))
  · rw [hakin.fields] at hf
    have hrole := (hs.fields c f hf).2.1
    refine root_rests h (r := .field f) (hroots (mem_append_left _ (mem_map_of_mem hf))) ?_ ?_
    · rw [rootOwner, Var.owner?, hrole]
    · rw [rootParts, Var.fieldInit, hakin.vars, hrole]
      rwa [hakin.vars] at hx
  · have hm0 := hm
    rw [hakin.allMethods] at hm0
    refine callable_rests (hmethods m hm) (by simp) fun sc' hsc x hx => ?_
    refine root_rests h (r := .method m) (hroots (mem_append_right _ (mem_map_of_mem hm0))) ?_ ?_
    · rw [rootOwner, hs.owner hm0, hsc]
    · rw [rootParts, append_assoc]
      exact hx

theorem functionBody_rests {f : FunctionId} (hnames : p.NamesApart (p.functions.get f).params)
    (hf : p0.functions.Valid f) : Rests sc p (functionBody f) () := by
  refine .program (.withReader (callable_rests hnames nofun fun sc' hsc x hx => ?_))
  refine root_rests h (r := .function f)
    (mem_append_right _ (mem_map_of_mem (mem_ids.2 hf))) hsc.symm ?_
  rw [rootParts, append_assoc]
  exact hx

theorem all_rests (hs : p0.Owned) (ha : p.Anchored) : Rests sc p all () := by
  have hakin := h.stage.akin
  unfold all
  refine .program (.bind (.forM fun m hm => registerModule_rests (ha.globals m (mem_ids.1 hm)))
    (.program ?_))
  refine .bind (.forM fun c hc => ?_) (.program (.bind (flatten_rests ha.flattened) (.program ?_)))
  · exact header_rests (ha.bounds c (mem_ids.1 hc)) (ha.bases c (mem_ids.1 hc))
  refine .bind (.forM fun c _ => overrides_rests h (hakin.owned hs) c)
    (.program (.bind (.forM fun c hc => ?_) (.program ?_)))
  · have hv := mem_ids.1 hc
    exact classBodies_rests h hs (ha.methods c hv) (hakin.classesValid.1 hv)
  refine .bind (.forM fun f hf => ?_) (.program (.program (.emit _)))
  have hv := mem_ids.1 hf
  refine functionBody_rests h (ha.functions f hv) ?_
  rwa [← hakin.functions]

end Bodies

end Resolve

/-- Once all names are bound, binding them again succeeds and changes nothing. -/
theorem resolve_resolve (h : p.Loaded) (hok : p.resolve.result = .ok ()) :
    p.resolve.program.resolve.result = .ok () ∧
      p.resolve.program.resolve.program = p.resolve.program := by
  obtain ⟨O, hgrown⟩ := h.grown
  have hbindings := resolve_bindings hgrown.sown hgrown.shaped hgrown.untyped hok
  have hanchored := (resolve_links hgrown.ground hgrown.ground.spans hok).2
  exact Rests.outcome (Resolve.all_rests hbindings hgrown.sown.owned hanchored)

def boundText : String :=
  "interface I(T) { m() int; } class D { +I(D) { m() int { n } } n = 2; } a = D; (b) { a = b; a.m() }"

theorem resolve_resolve_bound :
    resolves boundText = true ∧ (ofText boundText).resolve.result = .ok () ∧
      (ofText boundText).resolve.program = ofText boundText := by
  have hrun : resolves boundText = true := by decide +kernel
  obtain ⟨hload, hok⟩ := loaded_of_resolves hrun
  exact ⟨hrun, resolve_resolve hload hok⟩

end ClassLang.Program

import ClassLang.Proofs.Grammar.Places
import ClassLang.Proofs.Regions
import ClassLang.Proofs.Scope.Resolve
import ClassLang.Proofs.Scope.Rewrites

namespace ClassLang.Program

open Arena List

variable {p0 p q r : Program} {a : ParamId} {c : ClassId} {k : Nat} {W : List VarId → NodeId → Prop}
  {K : Location → Prop}

def Bounded (p : Program) (a : ParamId) : Prop :=
  ∀ d, (p.params.get a).boundRef = some d → ∃ inst c, p.Refers d inst ∧ p.insts.Valid inst ∧
    p.insts.get inst = ⟨.cls c, []⟩ ∧ (p.classes.get c).params = [] ∧
    (p.params.get a).bound = some c

def Based (p : Program) (c : ClassId) (k : Nat) : Prop :=
  ∀ b, (p.classes.get c).bases[k]? = some b → ∃ inst, b.inst = some inst ∧ p.Refers b.reference inst

def NamesApart (p : Program) (vs : List VarId) : Prop := (vs.map fun v => (p.vars.get v).name).Nodup

/-- `q` is what `p` becomes by binding names in declarations and their text. What was bound stays.
-/
structure Links (W : List VarId → NodeId → Prop) (p q : Program) : Prop where
  akin : p.Akin q
  locs : ∀ i, q.loc i = p.loc i
  grows : p.insts.Grows q.insts
  forms : ∀ i, (p.form i).Turns (q.form i)
  decides : ∀ i, p.Decides W i (q.form i)
  sited : p.Sited → q.Sited
  globals : ∀ n g, p.globals.lookup n = some g → q.globals.lookup n = some g
  flattened : ∀ c, (p.classes.get c).flattened = true → (q.classes.get c).flattened = true
  bounded : ∀ a, p.Bounded a → q.Bounded a
  based : ∀ c k, p.Based c k → q.Based c k

section Carrying

variable (hrefers : ∀ i inst, p.Refers i inst → q.Refers i inst)
include hrefers

theorem Bounded.carry (h : p.Bounded a) (hakin : p.Akin q) (hgrows : p.insts.Grows q.insts)
    (hparam : q.params.get a = p.params.get a) : q.Bounded a := by
  intro d hd
  rw [hparam] at hd
  obtain ⟨inst, c, href, hv, hget, hparams, hbound⟩ := h d hd
  exact ⟨inst, c, hrefers d inst href, hgrows.valid hv, (hgrows.get_eq hv).trans hget,
    (hakin.params c).trans hparams, hparam ▸ hbound⟩

theorem Based.carry (h : p.Based c k)
    (hbase : (q.classes.get c).bases[k]? = (p.classes.get c).bases[k]?) : q.Based c k := by
  intro b hb
  obtain ⟨inst, hinst, href⟩ := h b (hbase ▸ hb)
  exact ⟨inst, hinst, hrefers _ _ href⟩

end Carrying

namespace Links

@[refl] theorem refl (p : Program) : p.Links W p :=
  ⟨.refl p, fun _ => rfl, .refl _, fun _ => .same _, fun _ => .inl rfl, id, fun _ _ => id, fun _ =>
    id, fun _ => id, fun _ _ => id⟩

theorem trans (h : p.Links W q) (h' : q.Links W r) : p.Links W r where
  akin := h.akin.trans h'.akin
  locs i := (h'.locs i).trans (h.locs i)
  grows := h.grows.trans h'.grows
  forms i := (h.forms i).trans (h'.forms i)
  decides i := (h.decides i).trans (h'.decides i) h.forms (h'.forms i) h.akin.vars h.akin.names
  sited hp := h'.sited (h.sited hp)
  globals n g hg := h'.globals n g (h.globals n g hg)
  flattened c hc := h'.flattened c (h.flattened c hc)
  bounded a ha := h'.bounded a (h.bounded a ha)
  based c k hb := h'.based c k (h.based c k hb)

theorem of_text (hakin : p.Akin q) (hnodes : q.nodes = p.nodes) (hinsts : q.insts = p.insts)
    (hglobals : ∀ n g, p.globals.lookup n = some g → q.globals.lookup n = some g)
    (hflattened : ∀ c, (p.classes.get c).flattened = true → (q.classes.get c).flattened = true)
    (hbounded : ∀ a, p.Bounded a → q.params.get a = p.params.get a ∨ q.Bounded a)
    (hbased : ∀ c k, p.Based c k → (q.classes.get c).bases[k]? = (p.classes.get c).bases[k]? ∨
      q.Based c k) : p.Links W q := by
  have hform (i : NodeId) : q.form i = p.form i := by rw [form, hnodes, form]
  have hrefers (i : NodeId) (inst : InstId) (href : p.Refers i inst) : q.Refers i inst :=
    href.congr (hform i)
  have hgrows : p.insts.Grows q.insts := hinsts ▸ .refl _
  refine ⟨hakin, fun i => by rw [loc, hnodes, loc], hgrows, fun i => hform i ▸ .same _, fun i =>
    .inl (hform i), fun hp i inst href => ?_,
    hglobals, hflattened, fun a ha => ?_, fun c k hb => ?_⟩
  · rw [hinsts]
    exact hp i inst (href.congr (hform i).symm)
  · exact (hbounded a ha).elim (ha.carry hrefers hakin hgrows) id
  · exact (hbased c k hb).elim (hb.carry hrefers) id

end Links

theorem Rewrites.links (h : p.Rewrites W q) : p.Links W q where
  akin := h.akin
  locs := h.locs
  grows := h.grows
  forms := h.forms
  decides := h.decides
  sited := h.sited
  globals _ _ hg := (congrArg Program.globals h.rest) ▸ hg
  flattened _ hc := h.classes ▸ hc
  bounded _ ha := ha.carry (fun _ _ => h.refers) h.akin h.grows (by rw [h.params])
  based _ _ hb := hb.carry (fun _ _ => h.refers) (by rw [h.classes])

theorem Akin.symm (h : p.Akin q) : q.Akin p := ⟨h.bare.symm, h.nodes.symm⟩

def rootBody (p : Program) : Root → Option NodeId
  | .field v => (p.vars.get v).init
  | .method m => (p.methods.get m).body
  | .function f => (p.functions.get f).body
  | _ => none

def rootTypes (p : Program) : Root → List NodeId
  | .method m => p.paramTypes (p.methods.get m).params ++ (p.methods.get m).result.toList
  | .function f => p.paramTypes (p.functions.get f).params ++ (p.functions.get f).result.toList
  | _ => []

/-- `W` has all the text in which names are bound as values, and `K` holds of where it is. In a
value all parameters are in scope. -/
def Spans (p : Program) (W : List VarId → NodeId → Prop) (K : Location → Prop) : Prop :=
  ∀ r ∈ p.bodyRoots, (∀ vs, ∀ x ∈ p.rootTypes r, p.Covers W K vs x) ∧ ∀ x ∈ (p.rootBody r).toList,
    p.Covers W K (p.rootVars r).reverse x

structure Ground (K : Location → Prop) (p : Program) : Prop where
  sited : p.Sited
  owned : p.Owned
  placed : p.Placed K
  listed : ∀ f, p.Listed f → p.functions.Valid f
  vars : ∀ r, ∀ v ∈ p.rootVars r, p.vars.Valid v
  texts : ∀ r, ∀ x ∈ p.rootParts r, ∀ vs, p.Covers (fun _ _ => True) K vs x

section Roots

variable (h : p.Akin q)
include h

theorem Akin.rootBody (r : Root) : q.rootBody r = p.rootBody r := by
  cases r with
  | method m => exact h.methodBody m
  | _ => simp only [Program.rootBody, h.vars, h.functions]

theorem Akin.rootTypes (r : Root) : q.rootTypes r = p.rootTypes r := by
  cases r with
  | method m => simp only [Program.rootTypes, paramTypes, h.vars, h.methodParams, h.methodResult]
  | _ => simp only [Program.rootTypes, paramTypes, h.vars, h.functions]

end Roots

theorem Owned.rootParts_body {r : Root} (h : p.Owned) (hr : r ∈ p.bodyRoots) :
    p.rootParts r = p.rootTypes r ++ (p.rootBody r).toList := by
  rcases mem_append.1 hr with hr | hr
  · obtain ⟨c, _, hr⟩ := mem_flatMap.1 hr
    rcases mem_append.1 hr with hr | hr
    · obtain ⟨f, hf, rfl⟩ := mem_map.1 hr
      rw [rootParts, Var.fieldInit, (h.fields c f hf).2.1]
      rfl
    · obtain ⟨m, _, rfl⟩ := mem_map.1 hr
      rfl
  · obtain ⟨f, _, rfl⟩ := mem_map.1 hr
    rfl

theorem Ground.spans (h : p.Ground K) : p.Spans (fun _ _ => True) K := by
  intro r hr
  have htexts := h.texts r
  rw [h.owned.rootParts_body hr, forall_mem_append] at htexts
  exact ⟨fun vs x hx => htexts.1 x hx vs, fun x hx => htexts.2 x hx _⟩

theorem Shaped.sited (h : p.Shaped) : p.Sited := by
  rintro i inst ⟨name, target, args, hform⟩
  have hadmits := (h.forms i).2
  rwa [hform] at hadmits

theorem Shaped.ground (h : p.Shaped) {O : NodeId → Prop} (hs : p.Sown O) (hplaced : p.Placed K) :
    p.Ground K where
  sited := h.sited
  owned := hs.owned
  placed := hplaced
  listed := h.listed
  vars r v hv := by
    cases r with
    | method m => exact valid_of_role ((h.methods m).params v hv).1 (by simp)
    | function f => exact valid_of_role ((h.functions f).params v hv).1 (by simp)
    | _ => cases hv
  texts r x hx vs ws j hj := by
    exact ⟨trivial, hplaced.nodes j ((below_of_reaches hj).valid h (hs.forest.valid r x hx))⟩

theorem Built.ground {p₀ : Program} {O : NodeId → Prop} (h : p₀.Built O p) :
    p.Ground fun _ => True :=
  h.shaped.ground h.sown (by constructor <;> exact fun _ _ => trivial)

namespace Links

variable (h : p.Links W q)
include h

theorem covers {V : List VarId → NodeId → Prop} {vs : List VarId} {x : NodeId}
    (hx : p.Covers V K vs x) : q.Covers V K vs x :=
  fun ws j hj => h.locs j ▸ hx ws j (hj.of_turns h.akin.vars h.akin.lambdas h.forms)

theorem placed (hp : p.Ground K) : q.Placed K where
  nodes i hi := by
    rw [h.locs]
    exact hp.placed.nodes i (Nat.lt_of_lt_of_eq hi h.akin.nodes)
  vars v hv := by
    rw [h.akin.vars] at hv ⊢
    exact hp.placed.vars v hv
  methods m hm := by
    rw [show (q.methods.get m).loc = (p.methods.get m).loc
      from (congrArg Method.loc (h.akin.method m) :)]
    exact hp.placed.methods m (h.akin.methodsValid.1 hm)
  functions f hf := by
    rw [h.akin.functions] at hf ⊢
    exact hp.placed.functions f hf
  classes c hc := by
    rw [show (q.classes.get c).loc = (p.classes.get c).loc
      from (congrArg ClassDef.loc (h.akin.cls c) :)]
    exact hp.placed.classes c (h.akin.classesValid.1 hc)
  params a ha := by
    rw [show (q.params.get a).loc = (p.params.get a).loc
      from (congrArg ClassParam.loc (h.akin.param a) :)]
    exact hp.placed.params a (h.akin.paramsValid.1 ha)

theorem ground (hp : p.Ground K) : q.Ground K where
  sited := h.sited hp.sited
  owned := h.akin.owned hp.owned
  placed := h.placed hp
  listed f hf := by
    rw [Listed, h.akin.modules] at hf
    rw [h.akin.functions]
    exact hp.listed f hf
  vars r v hv := by
    rw [h.akin.rootVars] at hv
    rw [h.akin.vars]
    exact hp.vars r v hv
  texts r x hx vs := h.covers (hp.texts r x (h.akin.rootParts r ▸ hx) vs)

end Links

theorem Spans.links (h : p.Spans W K) (hq : p.Links W q) : q.Spans W K := by
  intro r hr
  rw [hq.akin.bodyRoots] at hr
  rw [hq.akin.rootTypes, hq.akin.rootBody, hq.akin.rootVars]
  exact ⟨fun vs x hx => hq.covers ((h r hr).1 vs x hx), fun x hx => hq.covers ((h r hr).2 x hx)⟩

theorem NamesApart.akin {vs : List VarId} (h : p.NamesApart vs) (hakin : p.Akin q) :
    q.NamesApart vs := by
  rwa [NamesApart, hakin.vars]

namespace Resolve

variable {α : Type} {sc : Scope} {name : NameId} {loc : Location} {m : Resolve α}
  {Q : α → Program → Prop}

theorem links_from (h : p0.Links W p) (hm : LeadsOr (K ·.loc) sc (p.Links W) p m Q) :
    LeadsOr (K ·.loc) sc (p0.Links W) p m Q :=
  hm.imp fun _ _ hq hQ => ⟨h.trans hq, hQ⟩

theorem links_of_rewrites (hm : LeadsOr (K ·.loc) sc (p.Rewrites W) p m Q) :
    LeadsOr (K ·.loc) sc (p.Links W) p m Q :=
  hm.imp fun _ _ hq hQ => ⟨hq.links, hQ⟩

theorem links_forM {ι : Type} {xs : List ι} {g : ι → Resolve Unit} {T : ι → Program → Prop}
    (h : p.Ground K) (hT : ∀ x q r, T x q → q.Links W r → T x r)
    (hg : ∀ x ∈ xs, ∀ q, p.Links W q → q.Ground K → LeadsOr (K ·.loc) sc (q.Links W) q (g x)
      fun _ => T x) :
    LeadsOr (K ·.loc) sc (p.Links W) p (xs.forM g) fun _ q => ∀ x ∈ xs, T x q := by
  refine (LeadsOr.forM_done (I := fun done q => p.Links W q ∧ ∀ x ∈ done, T x q) ⟨.refl p, nofun⟩
    fun done x hx q ⟨hq, hdone⟩ => ?_).imp fun _ q hq _ => hq
  refine (hg x hx q hq (hq.ground h)).imp fun _ r hr hxr => ⟨⟨hq.trans hr, ?_⟩, trivial⟩
  exact forall_mem_append.2 ⟨fun y hy => hT y q r (hdone y hy) hr, forall_mem_singleton.2 hxr⟩

theorem register_links (hloc : K loc) (g : Global) :
    LeadsOr (K ·.loc) sc (p.Links W) p (register name g loc) fun _ q =>
      q.globals.lookup name = some g := by
  unfold register
  refine .program ?_
  extract_lets previous
  have hput (n : NameId) : (Assoc.put name g p.globals).lookup n = if n = name then some g
    else p.globals.lookup n := Assoc.lookup_put
  by_cases hprevious : previous.any (· ≠ g) = true
  · refine .bind (S := fun _ => True) (Q := fun _ _ => True)
      ((LeadsOr.edit trivial).post fun _ _ _ _ => trivial) fun _ q _ _ => ?_
    rw [if_pos hprevious]
    exact .fail hloc
  · have hlinks : p.Links W { p with globals := Assoc.put name g p.globals } := by
      refine .of_text ⟨rfl, rfl⟩ rfl rfl (fun n g' hg' => ?_) (fun _ => id) (fun _ _ => .inl rfl)
        fun _ _ _ => .inl rfl
      rw [hput]
      split
      · rename_i hn
        subst hn
        have hsame : g' = g := by
          by_contra hne
          exact hprevious (by simp only [previous, hg', Option.any_some]; exact decide_eq_true hne)
        rw [hsame]
      · exact hg'
    refine .bind (.edit hlinks) fun _ q hq he => ?_
    rw [if_neg hprevious]
    refine .pure hq ?_
    subst he
    exact (hput name).trans (if_pos rfl)

def Registered (p : Program) (m : ModuleId) : Prop :=
  (∀ c ∈ (p.modules.get m).classes, p.globals.lookup (p.classes.get c).name = some (.cls c)) ∧
    ∀ f ∈ (p.modules.get m).functions, p.globals.lookup (p.functions.get f).name = some
    (.function f)

theorem Registered.links {m : ModuleId} (h : Registered p m) (hq : p.Links W q) :
    Registered q m := by
  have hname (c : ClassId) : (q.classes.get c).name = (p.classes.get c).name :=
    (congrArg ClassDef.name (hq.akin.cls c) :)
  refine ⟨fun c hc => ?_, fun f hf => ?_⟩
  · rw [hq.akin.modules] at hc
    rw [hname]
    exact hq.globals _ _ (h.1 c hc)
  · rw [hq.akin.modules] at hf
    rw [hq.akin.functions]
    exact hq.globals _ _ (h.2 f hf)

theorem registerModule_links (h : p.Ground K) (m : ModuleId) :
    LeadsOr (K ·.loc) sc (p.Links W) p (registerModule m) fun _ q => Registered q m := by
  have hname {p q : Program} (hq : p.Links W q) (c : ClassId) : (q.classes.get c).name =
    (p.classes.get c).name := (congrArg ClassDef.name (hq.akin.cls c) :)
  unfold registerModule
  refine .program ?_
  extract_lets decl
  refine .bind (links_forM (W := W)
    (T := fun c q => q.globals.lookup (q.classes.get c).name = some (.cls c)) h
    (fun c q r hc hr => ?_) fun c hc q hq hg => .program ?_) fun _ q hq hclasses => ?_
  · rw [hname hr]
    exact hr.globals _ _ hc
  · refine (register_links ?_ (.cls c)).post fun _ r hr hc => by rwa [hname hr]
    exact hg.placed.classes c (hg.owned.classes m c (by rwa [hq.akin.modules]))
  · refine (links_forM (T := fun f q => q.globals.lookup (q.functions.get f).name = some
      (.function f)) (hq.ground h) (fun f r s hf hs => ?_) fun f hf r hr hg => .program ?_).imp
      fun _ r hr hfunctions => ⟨hq.trans hr, ?_, ?_⟩
    · rw [hs.akin.functions]
      exact hs.globals _ _ hf
    · refine (register_links ?_ (.function f)).post fun _ s hs hf => by rwa [hs.akin.functions]
      exact hg.placed.functions f (hg.listed f ⟨m, by rwa [(hq.trans hr).akin.modules]⟩)
    · rw [(hq.trans hr).akin.modules]
      intro c hc
      rw [hname hr]
      exact hr.globals _ _ (hclasses c hc)
    · rw [(hq.trans hr).akin.modules]
      exact hfunctions

theorem bound_links (h : p.Ground K) (ha : p.params.Valid a) :
    LeadsOr (K ·.loc) sc (p.Links W) p (bound a) fun _ q => q.Bounded a := by
  unfold bound
  refine .program ?_
  extract_lets decl invalid
  split
  · rename_i reference href
    have hloc : K decl.loc := h.placed.params a ha
    have hcovers := h.texts (.param a) reference (Option.mem_toList.2 href) []
    refine .bind (.tryCatch (typeRef_rewrites (W := W) hcovers) fun e q he => ?_)
      fun inst q hq ⟨hinst, hvalid⟩ => .program ?_
    · split
      · exact .fail hloc
      · exact .fail he
    split
    · rename_i c hget
      refine .program ?_
      split
      · rename_i hempty
        let r : Program := { q with params := q.params.modify a fun d =>
          { d with bound := some c } }
        have hparam (b : ParamId) (hb : a ≠ b) : r.params.get b = q.params.get b :=
          get_modify_of_ne hb
        have hbounded : r.Bounded a := by
          intro d hd
          have hself : r.params.get a = { q.params.get a with bound := some c } :=
            get_modify_self ?_
          · have hd' : decl.boundRef = some d := by
              rw [hself, hq.params] at hd
              exact hd
            cases href.symm.trans hd'
            exact ⟨inst, c, hinst, hvalid h.sited, hget, List.isEmpty_iff.1 hempty,
              congrArg ClassParam.bound hself⟩
          · rw [hq.params]
            refine valid_of_get_ne fun he => ?_
            rw [show decl = default from he] at href
            cases href
        have hlinks : q.Links W r := by
          refine .of_text (akin_bound a c) rfl rfl (fun _ _ => id) (fun _ => id) (fun b _ => ?_)
            fun _ _ _ => .inl rfl
          by_cases hb : a = b
          · exact .inr (hb ▸ hbounded)
          · exact .inl (hparam b hb)
        refine (LeadsOr.edit (hq.links.trans hlinks)).post fun _ s _ he => ?_
        subst he
        exact hbounded
      · exact .fail hloc
    · exact .fail hloc
  · rename_i hnone
    exact .pure (.refl p) fun d hd => absurd hd (hnone d)

/-- The base that a reference was read from is the one that its instance is given to. -/
theorem baseInst_links {b : Base} {inst : InstId} (hb : (p.classes.get c).bases[k]? = some b)
    (href : p.Refers b.reference inst) :
    p.Links W (p.modifyClass c (setBaseInst k inst)) ∧
      (p.modifyClass c (setBaseInst k inst)).Based c k := by
  have hget (d : ClassId) (j : Nat) :
      ((p.modifyClass c (setBaseInst k inst)).classes.get d).bases[j]? = if d = c ∧
      j = k then some { b with inst := some inst } else (p.classes.get d).bases[j]? := by
    have hvalid : p.classes.Valid c := valid_of_get_ne fun he => by
      rw [he] at hb
      cases hb
    by_cases hd : c = d
    · subst hd
      have hself : (p.modifyClass c (setBaseInst k inst)).classes.get c = setBaseInst k inst
        (p.classes.get c) := get_modify_self hvalid
      rw [hself]
      by_cases hj : j = k
      · subst hj
        simp [setBaseInst, hb]
      · simp [setBaseInst, hj, Ne.symm hj]
    · rw [if_neg fun h => hd h.1.symm]
      exact congrArg (fun x : ClassDef => x.bases[j]?) (get_modify_of_ne hd)
  have hbased : (p.modifyClass c (setBaseInst k inst)).Based c k := by
    intro b' hb'
    rw [hget, if_pos ⟨rfl, rfl⟩] at hb'
    cases hb'
    exact ⟨inst, rfl, href⟩
  refine ⟨.of_text (akin_baseInst c k inst) rfl rfl (fun _ _ => id) (fun d hd => ?_)
    (fun _ _ => .inl rfl) fun d j _ => ?_, hbased⟩
  · have hsame (x : ClassDef) : (setBaseInst k inst x).flattened = x.flattened := rfl
    exact (get_modify_eq ClassDef.flattened hsame d).trans hd
  · by_cases hj : d = c ∧ j = k
    · obtain ⟨rfl, rfl⟩ := hj
      exact .inr hbased
    · left
      rw [hget, if_neg hj]

theorem header_links (h : p.Ground K) (c : ClassId) :
    LeadsOr (K ·.loc) sc (p.Links W) p (header c) fun _ q =>
      (∀ a ∈ (q.classes.get c).params, q.Bounded a) ∧ ∀ k, q.Based c k := by
  unfold header inClass
  refine .program ?_
  extract_lets module
  refine .withReader (.program ?_)
  refine .bind (links_forM (W := W) (T := fun a q => q.Bounded a) h
    (fun a q r ha hr => hr.bounded a ha) fun a ha q hq hg => ?_) fun _ q hq hparams => .program ?_
  · rw [← hq.akin.params] at ha
    obtain ⟨k, hk⟩ := mem_iff_getElem?.1 ha
    exact bound_links hg (hg.owned.params c k a hk).1
  refine (links_forM (T := fun x r => r.Based c x.2) (hq.ground h)
    (fun x r s hx hs => hs.based c x.2 hx) fun x hx r hr hg => ?_).imp fun _ r hr hbases =>
    ⟨hq.trans hr, ?_, ?_⟩
  · obtain ⟨b, k⟩ := x
    obtain ⟨b', hb', href, _⟩ := hr.akin.symm.base (mem_zipIdx_iff_getElem?.1 hx)
    have hcovers := hg.texts (.bases c) b.reference (href ▸ mem_map_of_mem (mem_of_getElem? hb')) []
    refine .bind (typeRef_rewrites (W := W) hcovers) fun inst s hs ⟨hinst, _⟩ => ?_
    rw [← hs.classes] at hb'
    rw [← href] at hinst
    have hlinks := baseInst_links (W := W) hb' hinst
    refine (LeadsOr.edit (hs.links.trans hlinks.1)).post fun _ t _ he => ?_
    subst he
    exact hlinks.2
  · intro a ha
    rw [(hq.trans hr).akin.params] at ha
    exact hr.bounded a (hparams a ha)
  · intro k b hb
    obtain ⟨b', hb', _⟩ := hr.akin.base hb
    exact hbases (b', k) (mem_zipIdx_iff_getElem?.2 hb') b hb

section Flattening

theorem flattened_links (c : ClassId) (members : MemberTable) (ancestors : List ClassId) :
    p.Links W (p.modifyClass c fun d => { d with members, ancestors, flattened := true }) := by
  let g (d : ClassDef) : ClassDef := { d with members, ancestors, flattened := true }
  have hbare : (p.classes.modify c g).map ClassDef.bare = p.classes.map ClassDef.bare :=
    map_modify_eq ClassDef.bare (fun d => (rfl : (g d).bare = d.bare)) _ _
  have hbases (d : ClassId) : ((p.modifyClass c g).classes.get d).bases = (p.classes.get d).bases :=
    get_modify_eq ClassDef.bases (fun d => (rfl : (g d).bases = d.bases)) d
  refine .of_text (akin_of_arenas hbare rfl rfl) rfl rfl (fun _ _ => id) (fun d hd => ?_)
    (fun _ _ => .inl rfl) fun d j _ => .inl (by rw [hbases])
  rw [modifyClass, get_modify]
  split
  · rfl
  · exact hd

/-- What is declared twice is one of what is declared. -/
theorem loc_of_ownTable {own : List (NameId × Member × Location)} {e : Fault NameCause}
    (h : ownTable own = .error e) : ∃ x ∈ own, x.2.2 = e.loc := by
  unfold ownTable at h
  generalize ({} : MemberTable) = table at h
  induction own generalizing table with
  | nil => cases h
  | cons x own ih =>
    rw [foldlM_cons] at h
    dsimp only at h
    split at h
    · obtain ⟨y, hy, hloc⟩ := ih _ h
      exact ⟨y, mem_cons_of_mem x hy, hloc⟩
    · cases h
      exact ⟨x, mem_cons_self, rfl⟩

theorem ownMembers_loc (hg : p.Ground K) {d : ClassDef} (hd : d.bare = (p.classes.get c).bare)
    {x : NameId × Member × Location} (hx : x ∈ p.ownMembers d) : K x.2.2 := by
  have hfields : d.fields = (p.classes.get c).fields := (congrArg ClassDef.fields hd :)
  have hmethods : d.methods = (p.classes.get c).methods := (congrArg ClassDef.methods hd :)
  rw [ownMembers, hfields, hmethods, mem_append] at hx
  rcases hx with hx | hx
  · obtain ⟨f, hf, rfl⟩ := mem_map.1 hx
    exact hg.placed.vars f (hg.owned.fields c f hf).1
  · obtain ⟨m, hm, rfl⟩ := mem_map.1 hx
    exact hg.placed.methods m (hg.owned.methods c m hm).1

/-- There are enough classes for a chain of bases that meets none of them twice. -/
theorem classUpTo_links (hg : p.Ground K) (n : Nat) {below : List ClassId} (hnodup : below.Nodup)
    (hbelow : ∀ d ∈ below, p.classes.Valid d) (hn : p.classes.size < n + below.length) (c : ClassId)
    {s : PassState} (hs : p.Links W s.program) :
    Yields s (Flatten.classUpTo n below c)
      (fun _ s' => p.Links W s'.program ∧
        (p.classes.Valid c → (s'.program.classes.get c).flattened = true)) fun e _ => K e.loc := by
  induction n generalizing below c s with
  | zero =>
    have hlen := Flatten.length_le_size hnodup hbelow
    omega
  | succ n ih =>
    refine (Flatten.classStep_agrees (I := fun s' => p.Links W s'.program) hs
      (fun hflat => ⟨hs, fun _ => hflat⟩)
      (fun hmem => (hs.placed hg).classes c (hs.akin.classesValid.2 (hbelow c hmem)))
      (fun hnew hc d s1 hs1 _ => Yields.agrees ?_) (fun b hb s1 hs1 _ _ _ => ?_)
      (fun s1 e hs1 hown => ?_) fun s1 _ _ _ hs1 =>
      ⟨hs1.trans (flattened_links c _ _), fun hc => ?_⟩).2
    · refine (ih (nodup_cons.2 ⟨hnew, hnodup⟩)
        (forall_mem_cons.2 ⟨hs.akin.classesValid.1 hc, hbelow⟩) ?_ d hs1).post fun _ _ h => h.1
      rw [length_cons]
      omega
    · have hmem : b.reference ∈ p.rootParts (.bases c) :=
        hs.akin.rootParts (.bases c) ▸ mem_map_of_mem hb
      rw [hs1.locs]
      exact (hg.texts _ _ hmem []).loc
    · obtain ⟨x, hx, hloc⟩ := loc_of_ownTable hown
      exact hloc ▸ ownMembers_loc (hs1.ground hg) ((hs.akin.cls c).trans (hs1.akin.cls c).symm) hx
    · exact congrArg ClassDef.flattened (get_modify_self (hs1.akin.classesValid.2 hc))

theorem flatten_links (hg : p.Ground K) (ids : List ClassId) (hids : ∀ c ∈ ids, p.classes.Valid c) :
    LeadsOr (K ·.loc) sc (p.Links W) p (fun _ => Flatten.classes ids) fun _ q =>
      ∀ c ∈ ids, (q.classes.get c).flattened = true := by
  rintro s rfl
  refine Yields.program (Yields.forM
    (I := fun done (s' : PassState) => s.program.Links W s'.program ∧
      ∀ c ∈ done, (s'.program.classes.get c).flattened = true) ⟨.refl _, nofun⟩
    fun done c rest s1 hsplit ⟨hs1, hdone⟩ => ?_)
  have hsize : s1.program.classes.size = s.program.classes.size :=
    size_of_map_eq (congrArg Program.classes hs1.akin.bare)
  refine (classUpTo_links (hs1.ground hg) _ nodup_nil (forall_mem_nil _)
    (hsize ▸ Nat.lt_succ_self _) c (.refl _)).post fun _ r ⟨hr, hflat⟩ => ⟨hs1.trans hr, ?_⟩
  exact forall_mem_append.2 ⟨fun d hd => hr.flattened d (hdone d hd),
    forall_mem_singleton.2 (hflat (hs1.akin.classesValid.2 (hids c (by simp [hsplit]))))⟩

end Flattening

theorem override_links {m : MethodId} (hloc : K (p.methods.get m).loc) (c base : ClassId) :
    LeadsOr (K ·.loc) sc (p.Links W) p (override c base m) fun _ _ => True := by
  unfold override
  refine .program ?_
  split
  rename_i hdecl
  rw [hdecl] at hloc
  refine .program ?_
  split
  · exact .fail hloc
  · exact .fail hloc
  · split
    · rename_i target _
      let g (d : Method) : Method := { d with overrides := some target }
      have hbare : (p.methods.modify m g).map Method.bare = p.methods.map Method.bare :=
        map_modify_eq Method.bare (fun d => (rfl : (g d).bare = d.bare)) _ _
      have hlinks : p.Links W (p.modifyMethod m g) :=
        .of_text (akin_of_arenas rfl rfl hbare) rfl rfl (fun _ _ => id) (fun _ => id)
        (fun _ _ => .inl rfl) fun _ _ _ => .inl rfl
      exact (LeadsOr.edit hlinks).post fun _ _ _ _ => trivial
    · exact .fail hloc

theorem overrides_links (h : p.Ground K) (c : ClassId) :
    LeadsOr (K ·.loc) sc (p.Links W) p (overrides c) fun _ _ => True := by
  refine .program (.forM (.refl p) fun b hb q hq => .program ?_)
  split
  · exact .pure hq trivial
  · refine .forM hq fun m hm r hr => links_from hr (override_links ?_ c _)
    obtain ⟨k, hk⟩ := mem_iff_getElem?.1 hb
    exact (hr.placed h).methods m (hr.akin.methodsValid.2 (h.owned.overloads c k b hk m hm).1)

/-- No parameter has the name of one before it. The body sees all of them, the last one first. -/
theorem callable_rewrites {result body : Option NodeId} (vs : List VarId)
    (hvars : ∀ v ∈ vs, K (p.vars.get v).loc)
    (htypes : ∀ us, ∀ x ∈ p.paramTypes vs ++ result.toList, p.Covers W K us x)
    (hbody : ∀ x ∈ body.toList, p.Covers W K (vs.reverse ++ sc.locals) x) :
    LeadsOr (K ·.loc) sc (p.Rewrites W) p (callable result body vs) fun _ q => q.NamesApart vs ∧
      ∀ v ∈ vs, ∀ u ∈ sc.locals, (q.vars.get u).name ≠ (q.vars.get v).name := by
  induction vs generalizing sc p with
  | nil =>
    refine rewrites_call (.refl p) (rewrites_optional visit_rewrites (htypes _))
      fun _ q hq _ _ => ?_
    exact (rewrites_from hq
      (rewrites_optional visit_rewrites fun x hx => hq.covers (hbody x hx))).post fun _ r hr _ =>
      ⟨nodup_nil, nofun⟩
  | cons v vs ih =>
    rw [paramTypes_cons, append_assoc] at htypes
    unfold callable
    refine .program ?_
    extract_lets var
    refine rewrites_call (.refl p)
      (rewrites_optional visit_rewrites fun x hx => htypes _ x (mem_append_left _ hx))
      fun _ q hq _ _ => .read (.program ?_)
    split
    · exact .fail_bind (hvars v mem_cons_self)
    · rename_i hnone
      have hnew (u : VarId) (hu : u ∈ sc.locals) : (q.vars.get u).name ≠ (q.vars.get v).name := by
        have hfind := Option.not_isSome_iff_eq_none.1 hnone
        rw [Scope.localNamed?, find?_eq_none] at hfind
        have := hfind u hu
        rw [hq.vars] at this ⊢
        simpa using this
      refine LeadsOr.withReader ((ih (fun u hu => ?_) (fun us x hx => ?_) fun x hx => ?_).imp
        fun _ r hr hend => ⟨hq.trans hr, ?_, ?_⟩)
      · rw [hq.vars]
        exact hvars u (mem_cons_of_mem v hu)
      · rw [paramTypes, hq.vars] at hx
        exact hq.covers (htypes us x (mem_append_right _ hx))
      · have hx' := hbody x hx
        rw [reverse_cons, append_assoc] at hx'
        exact hq.covers hx'
      · refine nodup_cons.2 ⟨fun hmem => ?_, hend.1⟩
        obtain ⟨u, hu, hname⟩ := mem_map.1 hmem
        exact hend.2 u hu v mem_cons_self hname.symm
      · intro w hw u hu
        rcases mem_cons.1 hw with rfl | hw
        · rw [hr.vars]
          exact hnew u hu
        · exact hend.2 w hw u (mem_cons_of_mem v hu)

theorem classBodies_links (h : p.Ground K) (hW : p.Spans W K) (hc : p.classes.Valid c) :
    LeadsOr (K ·.loc) sc (p.Links W) p (classBodies c) fun _ q =>
      ∀ m ∈ (q.classes.get c).allMethods, q.NamesApart (q.methods.get m).params := by
  have hroot {r : Root} (hr : r ∈ (p.classes.get c).fields.map .field ++
    (p.classes.get c).allMethods.map .method) : r ∈ p.bodyRoots :=
    mem_append_left _ (mem_flatMap.2 ⟨c, mem_ids.2 hc, hr⟩)
  refine .program (.withReader (.program ?_))
  refine .bind (links_forM (W := W) (T := fun _ _ => True) h (fun _ _ _ _ _ => trivial)
    fun f hf q hq _ => .program ?_) fun _ q hq _ => .program ?_
  · have hmem := hroot (mem_append_left _ (mem_map_of_mem hf))
    rw [← hq.akin.bodyRoots] at hmem
    exact links_of_rewrites (rewrites_optional visit_rewrites (hW.links hq _ hmem).2)
  · refine (links_forM (T := fun m r => r.NamesApart (r.methods.get m).params) (hq.ground h)
      (fun m r s hm hs => ?_) fun m hm r hr hg => .program ?_).imp fun _ r hr hmethods =>
      ⟨hq.trans hr, ?_⟩
    · rw [hs.akin.methodParams]
      exact hm.akin hs.akin
    · rw [hq.akin.allMethods] at hm
      have hmem := hroot (mem_append_right _ (mem_map_of_mem hm))
      rw [← (hq.trans hr).akin.bodyRoots] at hmem
      obtain ⟨htypes, hbody⟩ := hW.links (hq.trans hr) _ hmem
      refine links_of_rewrites
        ((callable_rewrites _ (fun v hv => hg.placed.vars v (hg.vars (.method m) v hv)) htypes
          fun x hx => ?_).post fun _ s hs ⟨hnames, _⟩ => ?_)
      · rw [append_nil]
        exact hbody x hx
      · rwa [hs.akin.methodParams]
    · rw [hr.akin.allMethods]
      exact hmethods

theorem functionBody_links {f : FunctionId} (h : p.Ground K) (hW : p.Spans W K)
    (hf : p.functions.Valid f) :
    LeadsOr (K ·.loc) sc (p.Links W) p (functionBody f) fun _ q =>
      q.NamesApart (q.functions.get f).params := by
  have hroot : .function f ∈ p.bodyRoots := mem_append_right _ (mem_map_of_mem (mem_ids.2 hf))
  obtain ⟨htypes, hbody⟩ := hW _ hroot
  refine .program (.withReader
    (links_of_rewrites ((callable_rewrites _
      (fun v hv => h.placed.vars v (h.vars (.function f) v hv)) htypes fun x hx => ?_).post
      fun _ q hq ⟨hnames, _⟩ => ?_)))
  · rw [append_nil]
    exact hbody x hx
  · rwa [hq.akin.functions]

end Resolve

structure Anchored (p : Program) : Prop where
  globals : ∀ m, p.modules.Valid m → Resolve.Registered p m
  bounds : ∀ c, p.classes.Valid c → ∀ a ∈ (p.classes.get c).params, p.Bounded a
  bases : ∀ c, p.classes.Valid c → ∀ k, p.Based c k
  flattened : ∀ c, p.classes.Valid c → (p.classes.get c).flattened = true
  methods : ∀ c, p.classes.Valid c → ∀ m ∈ (p.classes.get c).allMethods,
    p.NamesApart (p.methods.get m).params
  functions : ∀ f, p.functions.Valid f → p.NamesApart (p.functions.get f).params

namespace Resolve

theorem all_links (h : p.Ground K) (hW : p.Spans W K) {sc : Scope} :
    LeadsOr (K ·.loc) sc (p.Links W) p all fun _ q => q.Anchored := by
  unfold all
  refine .program (.bind (links_forM (W := W) h (fun m q r hm hr => hm.links hr) fun m _ q _ hq =>
    registerModule_links hq m) fun _ p1 h1 hglobals => .program ?_)
  refine .bind (links_forM (W := W) (h1.ground h) (fun c q r hc hr => ?_) fun c _ q _ hq =>
    header_links hq c) fun _ p2 h2 hheads => .program ?_
  · refine ⟨fun a ha => ?_, fun k => hr.based c k (hc.2 k)⟩
    rw [hr.akin.params] at ha
    exact hr.bounded a (hc.1 a ha)
  refine .bind (S := p2.Links W)
    (Q := fun _ q => ∀ c ∈ p2.classes.ids, (q.classes.get c).flattened = true)
    (flatten_links (h2.ground (h1.ground h)) _ fun c hc => mem_ids.1 hc)
    fun _ p3 h3 hflattened => .program ?_
  have hground := h3.ground (h2.ground (h1.ground h))
  refine .bind (links_forM (W := W) (T := fun _ _ => True) hground (fun _ _ _ _ _ => trivial)
    fun c _ q _ hg => overrides_links hg c) fun _ p4 h4 _ => .program ?_
  have hW4 := hW.links (h1.trans (h2.trans (h3.trans h4)))
  refine .bind (links_forM (W := W) (h4.ground hground) (fun c q r hc hr m hm => ?_)
    fun c hc q hq hg => classBodies_links hg (hW4.links hq) (hq.akin.classesValid.2 (mem_ids.1 hc)))
    fun _ p5 h5 hmethods => .program ?_
  · rw [hr.akin.allMethods] at hm
    rw [hr.akin.methodParams]
    exact (hc m hm).akin hr.akin
  refine .bind (links_forM (W := W) (h5.ground (h4.ground hground)) (fun f q r hf hr => ?_)
    fun f hf q hq hg => functionBody_links hg (hW4.links (h5.trans hq))
    (by rw [hq.akin.functions]; exact mem_ids.1 hf)) fun _ p6 h6 hfunctions =>
    .program (.program ?_)
  · rw [hr.akin.functions]
    exact hf.akin hr.akin
  have h46 := h4.trans (h5.trans h6)
  have h26 := h2.trans (h3.trans h46)
  have hlinks : p.Links W p6 := h1.trans h26
  have hanchored : p6.Anchored := by
    refine ⟨fun m hm => ?_, fun c hc a ha => ?_, fun c hc k => ?_, fun c hc => ?_, fun c hc m hm =>
      ?_, fun f hf => ?_⟩
    · rw [hlinks.akin.modules] at hm
      exact (hglobals m (mem_ids.2 hm)).links h26
    · rw [(h3.trans h46).akin.params] at ha
      exact (h3.trans h46).bounded a ((hheads c (mem_ids.2 (h26.akin.classesValid.1 hc))).1 a ha)
    · exact (h3.trans h46).based c k ((hheads c (mem_ids.2 (h26.akin.classesValid.1 hc))).2 k)
    · exact h46.flattened c (hflattened c (mem_ids.2 ((h3.trans h46).akin.classesValid.1 hc)))
    · rw [h6.akin.allMethods] at hm
      rw [h6.akin.methodParams]
      exact (hmethods c (mem_ids.2 ((h5.trans h6).akin.classesValid.1 hc)) m hm).akin h6.akin
    · rw [h6.akin.functions] at hf
      exact hfunctions f (mem_ids.2 hf)
  rintro s rfl
  exact ⟨hlinks, hanchored⟩

end Resolve

theorem resolve_settles (h : p.Ground K) (hW : p.Spans W K) : match p.resolve.result with
    | .ok _ => p.Links W p.resolve.program ∧ p.resolve.program.Anchored
    | .error e => K e.loc := by
  have hlinks : LeadsOr (K ·.loc) {} (p.Links W) p Resolve.all fun _ q => q.Anchored :=
    Resolve.all_links h hW
  have hall := (hlinks { program := p } rfl).outcome
  rw [show (Resolve.all {}).outcome p = p.resolve from rfl] at hall
  split at hall
  · rename_i hok
    rw [hok]
    exact hall
  · rename_i e herr
    rw [herr]
    exact hall

theorem resolve_links (h : p.Ground K) (hW : p.Spans W K) (hok : p.resolve.result = .ok ()) :
    p.Links W p.resolve.program ∧ p.resolve.program.Anchored := by
  have hall := resolve_settles h hW
  rwa [hok] at hall

/-- Binding the names of a program leaves everything where it is, and complains about places of
which `K` holds only. -/
theorem resolve_blames (h : p.Ground K) : match p.resolve.result with
    | .ok _ => p.Links (fun _ _ => True) p.resolve.program
    | .error e => K e.loc := by
  have hall := resolve_settles h h.spans
  split at hall
  · exact hall.1
  · exact hall

end ClassLang.Program

import ClassLang.Proofs.Scope.Members
import ClassLang.Proofs.Scope.Setting

namespace ClassLang

open Arena Pool List

namespace Scope

def setting (sc : Scope) (targets : List NodeId) : Setting := ⟨⟨sc.owner, targets⟩, sc.locals⟩

end Scope

namespace Program

variable {α β : Type} {sc : Scope} {p0 p q r : Program} {name : NameId} {i : NodeId}
  {loc : Location} {S T : NodeId → Prop} {e : Setting} {n : Nat} {z : Zone} {inst : InstId}

structure Indexed (p : Program) : Prop where
  shaped : p.Shaped
  untyped : p.Untyped
  instances : p.Instances
  globals : ∀ n c, (n, Global.cls c) ∈ p.globals → p.classes.Valid c
  params : ∀ c, ∀ q ∈ (p.classes.get c).params, p.params.Valid q

def Means (p : Program) (sc : Scope) (name : NameId) : Binding → Prop
  | .var v => v ∈ sc.locals
  | .field f =>
    ∃ c path, sc.owner = some c ∧ (p.classes.get c).members.lookup name = .one ⟨.field f, path⟩
  | .method m =>
    ∃ c path, sc.owner = some c ∧ (p.classes.get c).members.lookup name = .one ⟨.method m, path⟩
  | .classParam q => q ∈ p.formals sc.owner
  | .cls c => p.classes.Valid c
  | .function f => p.Listed f

section Lookup

theorem mem_of_lookup {α β : Type} [DecidableEq α] {table : List (α × β)} {a : α} {b : β}
    (h : table.lookup a = some b) : (a, b) ∈ table := by
  obtain ⟨l1, l2, rfl, _⟩ := lookup_eq_some_iff.1 h
  simp

/-- What is found is registered; the induction is over the modules looked into. -/
theorem mem_visibleGlobals {segment : String} {x : NameId × Global}
    (h : x ∈ sc.visibleGlobals p segment) : x ∈ p.globals := by
  unfold Scope.visibleGlobals at h
  extract_lets m at h
  refine List.foldlRecOn (motive := fun found => ∀ y ∈ found, y ∈ p.globals) _ _ (forall_mem_nil _)
    (fun found hfound scope _ => ?_) x h
  split
  · rename_i q g hq
    split
    · exact hfound
    · refine forall_mem_append.2 ⟨hfound, forall_mem_singleton.2 ?_⟩
      obtain ⟨n, _, hg⟩ := Option.bind_eq_some_iff.1 hq
      obtain ⟨g', hlookup, heq⟩ := Option.map_eq_some_iff.1 hg
      cases heq
      exact mem_of_lookup hlookup
  · exact hfound

theorem mem_of_global {g : Global} (h : sc.global p name = .ok g) : ∃ n, (n, g) ∈ p.globals := by
  unfold Scope.global at h
  split at h
  · split at h
    · cases h
      exact ⟨name, mem_of_lookup ‹_›⟩
    · cases h
  · split at h
    · cases h
    · cases h
      rename_i hone
      exact ⟨_, mem_visibleGlobals (hone ▸ mem_singleton_self _)⟩
    · cases h

theorem mem_of_classParam? {a : ParamId} (h : sc.classParam? p name = some a) :
    a ∈ p.formals sc.owner := by
  unfold Scope.classParam? at h
  cases ho : sc.owner with
  | none =>
    rw [ho] at h
    cases h
  | some c =>
    rw [ho] at h
    exact mem_of_find?_eq_some h

theorem means_of_global (hp : p.Indexed) {b : Binding}
    (h : (sc.global p name).map Binding.ofGlobal = .ok b) : p.Means sc name b := by
  cases hg : sc.global p name with
  | error e =>
    rw [hg] at h
    cases h
  | ok g =>
    rw [hg] at h
    obtain ⟨n, hn⟩ := mem_of_global hg
    cases g with
    | cls c =>
      cases h
      exact hp.globals n c hn
    | function f =>
      cases h
      exact hp.shaped.globals n f hn

theorem means_of_inClass {b : Binding} (h : sc.inClass p name = .ok (some b)) :
    p.Means sc name b := by
  unfold Scope.inClass at h
  split at h
  · cases h
  · rename_i c hc
    split at h
    · cases h
    · rename_i entry hentry
      split at h
      · cases h
      · rename_i f hf
        cases h
        obtain ⟨member, path⟩ := entry
        cases hf
        exact ⟨c, path, hc, hentry⟩
      · rename_i m hm
        cases h
        obtain ⟨member, path⟩ := entry
        cases hm
        exact ⟨c, path, hc, hentry⟩
    · obtain ⟨a, ha, rfl⟩ := Option.map_eq_some_iff.1 (Except.ok.inj h)
      exact mem_of_classParam? ha

theorem means_of_lookup (hp : p.Indexed) {b : Binding} (h : sc.lookup p name = .ok b) :
    p.Means sc name b := by
  unfold Scope.lookup at h
  split at h
  · exact means_of_global hp h
  · split at h
    · rename_i v hv
      cases h
      exact mem_of_find?_eq_some hv
    · split at h
      · cases h
      · rename_i hb
        cases h
        exact means_of_inClass hb
      · exact means_of_global hp h

def Offers (p : Program) (a : List ParamId) : Target → Prop
  | .cls c => p.classes.Valid c
  | .param q => q ∈ a ∧ p.params.Valid q

theorem valid_of_formals (hp : p.Indexed) {o : Option ClassId} {a : ParamId}
    (ha : a ∈ p.formals o) : p.params.Valid a := by
  cases o with
  | none => cases ha
  | some c => exact hp.params c a ha

theorem offers_of_lookupType (hp : p.Indexed) {target : Target}
    (h : sc.lookupType p name = .ok target) : p.Offers (p.formals sc.owner) target := by
  unfold Scope.lookupType at h
  split at h
  · rename_i a ha
    cases h
    split at ha
    · cases ha
    · have hmem := mem_of_classParam? ha
      exact ⟨hmem, valid_of_formals hp hmem⟩
  · split at h
    · rename_i c hg
      cases h
      obtain ⟨n, hn⟩ := mem_of_global hg
      exact hp.globals n c hn
    · cases h
    · cases h

end Lookup

section Frames

theorem Binds.refl (hp : p.Indexed) : p.Binds S p :=
  ⟨.refl hp.shaped hp.untyped, rfl, rfl, fun _ _ => rfl, fun _ => id, .refl _, hp.instances⟩

section

variable (h : p.Binds S q)
include h

theorem Binds.refers (hi : ¬ S i) (hr : p.Refers i inst) : q.Refers i inst :=
  hr.congr (h.forms i hi)

theorem Binds.indexed (hp : p.Indexed) : q.Indexed where
  shaped := h.linked.shaped
  untyped := h.linked.untyped
  instances := h.instances
  globals := by
    rw [h.globals, h.classes]
    exact hp.globals
  params := by
    rw [h.classes, h.params]
    exact hp.params

theorem Binds.offers {a : List ParamId} {target : Target} (ht : p.Offers a target) :
    q.Offers a target := by
  cases target with
  | cls c =>
    rw [Offers, h.classes]
    exact ht
  | param b =>
    rw [Offers, h.params]
    exact ht

theorem Binds.keyed (hp : p.Keyed) : q.Keyed := by
  intro c name entry hentry
  rw [h.classes] at hentry
  have hname := hp c name entry hentry
  cases hm : entry.member with
  | field f =>
    rw [hm] at hname
    rw [memberName, h.vars]
    exact hname
  | method m =>
    rw [hm] at hname
    rw [memberName, h.methods]
    exact hname

theorem Binds.setForm (hi : S i) (hkind : (q.form i).isTarget = false) {form : Form}
    (hform : q.Fits i form) (htype : (q.form i).isType → form.isType) :
    p.Binds S (q.setForm i form) where
  linked := h.linked.setForm hkind hform
  rest := by
    rw [Program.setForm, ← h.rest]
  size := by simpa [Program.setForm] using h.size
  forms j hj := by
    have hij : i ≠ j := fun he => hj (he ▸ hi)
    rw [← h.forms j hj]
    simp only [Program.form, Program.setForm, get_modify_of_ne hij]
  types j hj := by
    have hq := h.types j hj
    rw [Program.form] at hq
    rw [Program.form, Program.setForm, get_modify]
    split
    · rename_i hij
      exact htype (hij.1 ▸ hq)
    · exact hq
  grows := h.grows
  instances := { h.instances with }

end

theorem Instances.intern (h : p.Instances) {inst : Inst} (hinst : p.Formed inst) :
    ({ p with insts := (p.insts.intern inst).2 } : Program).Instances where
  formed x hx := by
    rcases valid_or_get_intern hx with hv | he
    · rw [(grows_intern p.insts inst).get_eq hv]
      exact h.formed x hv
    · rw [he]
      exact hinst

theorem Binds.intern (h : p.Binds S q) {inst : Inst} (hargs : ∀ a ∈ inst.args, q.insts.Valid a)
    (hinst : q.Formed inst) : p.Binds S { q with insts := (q.insts.intern inst).2 } where
  linked := h.linked.internInst hargs
  rest := by rw [← h.rest]
  size := h.size
  forms := h.forms
  types := h.types
  grows := h.grows.trans (grows_intern _ _)
  instances := h.instances.intern hinst

structure Prepared (p : Program) (n : Nat) : Prop where
  indexed : p.Indexed
  keyed : p.Keyed
  fuel : n ≤ p.nodes.size

theorem Prepared.mono {k : Nat} (h : p.Prepared n) (hk : k ≤ n) : p.Prepared k :=
  { h with fuel := Nat.le_trans hk h.fuel }

theorem Binds.prepared (h : p.Binds S q) (hp : p.Prepared n) : q.Prepared n :=
  ⟨h.indexed hp.indexed, h.keyed hp.keyed, h.size ▸ hp.fuel⟩

theorem Binds.tree (h : p.Binds S q) {y : NodeId} (ht : p.Tree n z y)
    (hd : ∀ j, p.Below y j → ¬ S j) : q.Tree n z y ∧ ∀ j, q.Below y j → p.Below y j :=
  ht.congr (h.vars ▸ .refl _) (h.lambdas ▸ .refl _) h.linked.ext.targets fun j hj =>
    h.forms j (hd j hj)

variable {xs ys : List NodeId} (hapart : (xs ++ ys).Pairwise p.Apart)
  (h : p.Binds (fun j => ∃ x ∈ xs, p.Below x j) q)
include hapart h

theorem Binds.rest_trees (htrees : ∀ y ∈ ys, ∃ n z, p.Tree n z y) :
    (∀ y ∈ ys, ∀ n z, p.Tree n z y → q.Tree n z y) ∧ ys.Pairwise q.Apart ∧
      ∀ y ∈ ys, ∀ j, q.Below y j → p.Below y j := by
  have hold (y : NodeId) (hy : y ∈ ys) (n : Nat) (z : Zone) (ht : p.Tree n z y) :=
    h.tree ht fun j hj ⟨x, hx, hxj⟩ => (pairwise_append.1 hapart).2.2 x hx y hy j hxj hj
  have hbelow (y : NodeId) (hy : y ∈ ys) (j : NodeId) (hj : q.Below y j) : p.Below y j := by
    obtain ⟨n, z, ht⟩ := htrees y hy
    exact (hold y hy n z ht).2 j hj
  refine ⟨fun y hy n z ht => (hold y hy n z ht).1, ?_, hbelow⟩
  exact (pairwise_append.1 hapart).2.1.imp_of_mem fun hx hy hxy j hjx hjy =>
    hxy j (hbelow _ hx j hjx) (hbelow _ hy j hjy)

theorem Binds.both (hbelow : ∀ y ∈ ys, ∀ j, q.Below y j → p.Below y j)
    (h' : q.Binds (fun j => ∃ y ∈ ys, q.Below y j) r) :
    p.Binds (fun j => ∃ x ∈ xs ++ ys, p.Below x j) r ∧ ∀ x ∈ xs, ∀ e, q.Scoped (p.Below x) e x →
      r.Scoped (p.Below x) e x := by
  refine ⟨?_, fun x hx e hscoped => h'.scoped hscoped fun j hj ⟨y, hy, hyj⟩ => ?_⟩
  · refine (h.mono ?_).trans h' ?_
    · rintro j ⟨x, hx, hj⟩
      exact ⟨x, mem_append_left _ hx, hj⟩
    · rintro j ⟨y, hy, hj⟩
      exact ⟨y, mem_append_right _ hy, hbelow y hy j hj⟩
  · exact (pairwise_append.1 hapart).2.2 x hx y hy j hj (hbelow y hy j hyj)

end Frames

section Nodes

variable {form : Form} (htree : p.Tree n z i)
include htree

/-- The parts of a node are bound, and the node itself says what it said. -/
theorem Tree.scoped (h : p.Binds (fun j => ∃ x ∈ p.inner (p.form i), p.Below x j) r)
    (hbound : r.Bound e (p.form i))
    (hplaces : ∀ x ∈ r.places e i (p.form i), r.Scoped (p.Below x.2) x.1 x.2) :
    p.Binds (p.Below i) r ∧ r.Scoped (p.Below i) e i := by
  have hform : r.form i = p.form i := h.forms i fun ⟨x, hx, hi⟩ => htree.not_below hx hi
  refine ⟨h.mono fun j ⟨x, hx, hj⟩ => .head hx hj, .node (.refl i) (hform ▸ hbound) fun x hx => ?_⟩
  rw [hform] at hx
  refine (hplaces x hx).mono (fun j hj => .head ?_ hj) (.refl _)
  rw [← h.inner]
  exact mem_places hx

/-- The parts of a node are bound, and then the name that the node starts with. -/
theorem Tree.scoped_setForm (h : p.Binds (p.Below i) r) (hp : p.Indexed) (hvalid : p.nodes.Valid i)
    (hkind : (p.form i).isTarget = false) (htype : (r.form i).isType → form.isType)
    (hfits : r.Fits i form) (hbound : r.Bound e form)
    (hplaces : ∀ x ∈ r.places e i form, x.2 ∈ p.inner (p.form i) ∧ r.Scoped (p.Below x.2) x.1 x.2) :
    p.Binds (p.Below i) (r.setForm i form) ∧ (r.setForm i form).form i = form ∧
      (r.setForm i form).Scoped (p.Below i) e i := by
  have hkind' : (r.form i).isTarget = false := (h.linked.kinds i).trans hkind
  have hvalid' : r.nodes.Valid i := h.linked.ext.nodes i hvalid
  have hset : r.Binds (Eq i) (r.setForm i form) :=
    (Binds.refl (h.indexed hp)).setForm rfl hkind' hfits htype
  have hform : (r.setForm i form).form i = form := by
    simp only [Program.form, Program.setForm, get_modify_self hvalid']
  refine ⟨h.setForm (.refl i) hkind' hfits htype, hform, .node (.refl i) ?_ fun x hx => ?_⟩
  · rw [hform]
    refine hset.bound hbound fun x hx => hset.forms x ?_
    rintro rfl
    obtain ⟨d, hd⟩ := exists_place (mem_inner_of_children (p := r) hx) e i
    exact htree.not_below (hplaces _ hd).1 (.refl i)
  · rw [hform, hset.places] at hx
    obtain ⟨hinner, hscoped⟩ := hplaces x hx
    refine (hset.scoped hscoped fun j hj he => ?_).mono (fun j hj => .head hinner hj) (.refl _)
    exact htree.not_below hinner (he ▸ hj)

end Nodes

section Sequences

variable {m : Resolve α} {k : α → Resolve β} {Q : α → Program → Prop} {P : β → Program → Prop}

theorem Binds.call (h : p0.Binds S p) (hTS : ∀ j, T j → S j) (hm : Leads sc (p.Binds T) p m Q)
    (hk : ∀ a q, p0.Binds S q → p.Binds T q → Q a q → Leads sc (p0.Binds S) q (k a) P) :
    Leads sc (p0.Binds S) p (m >>= k) P :=
  .bind hm fun a q hq => hk a q (h.trans hq hTS) hq

end Sequences

namespace Resolve

theorem lookup_binds (hp : p.Indexed) :
    Leads sc (p.Binds S) p (lookup name loc) fun b q => q = p ∧ p.Means sc name b := by
  refine .read (.program ?_)
  split
  · exact .pure (.refl hp) ⟨rfl, means_of_lookup hp ‹_›⟩
  · exact .fail trivial

section Instances

variable {a : List ParamId} {target : Target} {args : List InstId}

section

variable (hp : p.Indexed) (htarget : p.Offers a target) (hargs : ∀ x ∈ args, p.Within a x)
include hp htarget hargs

theorem intern_binds (hformed : p.Formed ⟨target, args⟩) :
    p.Binds S { p with insts := (p.insts.intern ⟨target, args⟩).2 } ∧
      ({ p with insts := (p.insts.intern ⟨target, args⟩).2 } : Program).Within a
      (p.insts.intern ⟨target, args⟩).1 := by
  have hgrows := grows_intern p.insts ⟨target, args⟩
  have hget := get_intern_self p.insts ⟨target, args⟩
  refine ⟨(Binds.refl hp).intern (fun x hx => (hargs x hx).valid) hformed,
    .node (valid_intern ..) (fun b hb => ?_) ?_⟩
  · rw [hget] at hb
    subst hb
    exact htarget.1
  · rw [hget]
    exact fun x hx => (hargs x hx).grows hgrows

theorem instantiate_binds :
    Leads sc (p.Binds S) p (instantiate target args loc) fun i q => q.Within a i ∧
      q.insts.get i = ⟨target, args⟩ := by
  unfold instantiate
  extract_lets finish
  have hfinish (hformed : ∀ c, target = .cls c → args.length = (p.classes.get c).params.length) :
      Leads sc (p.Binds S) p (finish ()) fun i q => q.Within a i ∧
      q.insts.get i = ⟨target, args⟩ := by
    refine .program ?_
    split
    · rename_i i insts hi
      have hintern : p.insts.intern ⟨target, args⟩ = (i, insts) ∧ p.Formed ⟨target, args⟩ := by
        unfold InstTable.instantiate? at hi
        split at hi
        · cases hi
        · rename_i hparam
          refine ⟨Option.some.inj hi, ?_⟩
          cases target with
          | cls c => exact ⟨htarget, hformed c rfl⟩
          | param b =>
            refine ⟨htarget.2, ?_⟩
            cases args with
            | nil => rfl
            | cons x xs => exact (hparam b x xs rfl rfl).elim
      have hbinds := intern_binds (S := S) hp htarget hargs hintern.2
      have hget := get_intern_self p.insts ⟨target, args⟩
      rw [hintern.1] at hbinds hget
      refine .bind (.edit hbinds.1) fun _ q hq he => .pure hq ?_
      subst he
      exact ⟨hbinds.2, hget⟩
    · exact .fail trivial
  split
  · refine .program ?_
    extract_lets expected
    split
    · exact fun _ _ => trivial
    · rename_i c hexpected
      refine hfinish ?_
      rintro _ ⟨⟩
      exact (Decidable.not_not.1 hexpected).symm
  · rename_i hcls
    exact hfinish fun c hc => (hcls c hc).elim

end

end Instances

theorem within_of_refers (h : q.Refers i inst) (hi : q.Scoped S e i) :
    q.Within (q.formals e.owner) inst := by
  obtain ⟨name, target, args, hform⟩ := h
  cases hi with
  | node _ hbound _ =>
    rw [hform] at hbound
    obtain ⟨x, hx, _, _, hwithin⟩ := hbound
    cases hx
    exact hwithin

theorem mapM_binds {g : NodeId → Resolve α} {Q : NodeId → α → Program → Prop} {xs : List NodeId}
    (hp : p.Indexed) (hapart : xs.Pairwise p.Apart) (htrees : ∀ x ∈ xs, p.Tree n z x)
    (hg : ∀ x p, p.Indexed → p.Tree n z x → Leads sc (p.Binds (p.Below x)) p (g x) fun a q =>
      Q x a q ∧ q.Scoped (p.Below x) e x)
    (hQ : ∀ x a p q S, Q x a p → p.Binds S q → ¬ S x → Q x a q) :
    Leads sc (p.Binds fun j => ∃ x ∈ xs, p.Below x j) p (xs.mapM g) fun as q =>
      Forall₂ (fun x a => Q x a q) xs as ∧ ∀ x ∈ xs, q.Scoped (p.Below x) e x := by
  induction xs generalizing p with
  | nil => exact .pure (.refl hp) ⟨.nil, nofun⟩
  | cons x xs ih =>
    rw [mapM_cons]
    refine .bind (hg x p hp (htrees x mem_cons_self)) fun a q hq ⟨ha, hx⟩ => ?_
    have hq' : p.Binds (fun j => ∃ y ∈ [x], p.Below y j) q :=
      hq.mono fun j hj => ⟨x, mem_singleton_self x, hj⟩
    obtain ⟨hsame, hapart', hbelow⟩ := hq'.rest_trees hapart fun y hy =>
      ⟨n, z, htrees y (mem_cons_of_mem x hy)⟩
    have htrees' (y : NodeId) (hy : y ∈ xs) := hsame y hy n z (htrees y (mem_cons_of_mem x hy))
    refine .bind (ih (hq.indexed hp) hapart' htrees') fun as r hr ⟨has, hxs⟩ => ?_
    obtain ⟨hboth, hkeep⟩ := hq'.both hapart hbelow hr
    refine .pure hboth ⟨.cons (hQ x a q r _ ha hr fun ⟨y, hy, hyx⟩ => ?_) has,
      forall_mem_cons.2 ⟨?_, fun y hy => ?_⟩⟩
    · exact (pairwise_cons.1 hapart).1 y hy x (.refl x) (hbelow y hy x hyx)
    · exact hkeep x (mem_singleton_self x) e hx
    · exact (hxs y hy).mono (hbelow y hy) (.refl e)

/-- Types have no more levels than there is fuel for, so the induction is on the fuel. -/
theorem typeRefUpTo_binds (fuel : Nat) (hp : p.Indexed) (htree : p.Tree n z i) :
    Leads sc (p.Binds (p.Below i)) p (typeRefUpTo fuel i) fun inst q => Refers q i inst ∧
      q.Scoped (p.Below i) (sc.setting z.targets) i := by
  induction fuel generalizing i p n with
  | zero => exact .program (.fail trivial)
  | succ fuel ih =>
    have ⟨hraw, hapart, hparts⟩ := htree
    unfold typeRefUpTo
    refine .program ?_
    extract_lets loc
    refine .program ?_
    split
    · rename_i hi
      rw [hi] at hraw
      cases hraw.2
    · rename_i name _ params hi
      refine .read (.program ?_)
      split
      · exact .fail trivial
      · rename_i target htarget
        have hinner : p.inner (p.form i) = params := by rw [hi]; rfl
        have hkind : (p.form i).isTarget = false := by rw [hi]; rfl
        have hvalid := valid_of_form hi nofun
        have horder := hp.untyped.ordered i hkind
        rw [hinner] at hapart
        rw [hi] at hparts horder
        have htrees (x : NodeId) (hx : x ∈ params) := hparts (z, x) (mem_map_of_mem hx)
        refine Binds.call (.refl hp) (fun j ⟨x, hx, hj⟩ => .head (hinner ▸ hx) hj)
          (mapM_binds hp hapart htrees (fun x p hp ht => ih hp ht) ?_)
          fun insts q hq _ ⟨hinsts, hxs⟩ => ?_
        · exact fun x inst p q S hx hpq hn => hpq.refers hn hx
        have hwithin : ∀ a ∈ insts, q.Within (q.formals sc.owner) a := by
          intro a ha
          obtain ⟨x, hx, href⟩ := exists_of_forall₂ hinsts ha
          exact within_of_refers href (hxs x hx)
        have hoffers := hq.offers (offers_of_lookupType hp htarget)
        rw [← hq.formals] at hoffers
        refine hq.call (fun _ => False.elim)
          (instantiate_binds (S := fun _ => False) (hq.indexed hp) hoffers hwithin)
          fun inst r hr hqr ⟨hinst, hget⟩ => ?_
        have hfits : r.Fits i (.classRef name (some target) params (some inst)) :=
          ⟨⟨fun x hx => hr.linked.ext.nodes x (hp.shaped.valid_of_inner (hinner.symm ▸ hx)),
            hinst.valid⟩, rfl, nofun, horder⟩
        have hbound : r.Bound (sc.setting z.targets)
            (.classRef name (some target) params (some inst)) := by
          refine ⟨inst, rfl, by rw [hget], ?_, hqr.formals _ ▸ hinst⟩
          rw [hget]
          exact hinsts.imp fun _ _ => hqr.refers id
        obtain ⟨hbinds, hform, hscoped⟩ := htree.scoped_setForm hr hp hvalid hkind (fun _ => rfl)
          hfits hbound fun x hx => by
            obtain ⟨y, hy, rfl⟩ := mem_map.1 hx
            exact ⟨hinner.symm ▸ hy, hqr.scoped (hxs y hy) fun _ _ => id⟩
        refine .bind (.edit hbinds) fun _ s hs he => .pure hs ?_
        subst he
        exact ⟨⟨name, _, _, hform⟩, hscoped⟩
    · exact .fail trivial

theorem typeRef_binds (hp : p.Indexed) (htree : p.Tree n z i) : Leads sc (p.Binds (p.Below i)) p
    (typeRef i) fun inst q => Refers q i inst ∧ q.Scoped (p.Below i) (sc.setting z.targets) i :=
  .program (typeRefUpTo_binds _ hp htree)

theorem typeArg_bind (hp : p.Indexed) (x : NodeId) :
    Leads sc (p.Binds S) p (typeArg x) fun inst q => q = p ∧ p.Refers x inst := by
  refine .program ?_
  split
  · rename_i name target params inst hi
    exact .pure (.refl hp) ⟨rfl, name, target, params, hi⟩
  · exact .program (.fail trivial)

theorem typeArgs_bind (hp : p.Indexed) (args : List NodeId) :
    Leads sc (p.Binds S) p (args.mapM typeArg) fun insts q => q = p ∧
      Forall₂ p.Refers args insts := by
  induction args with
  | nil => exact .pure (.refl hp) ⟨rfl, .nil⟩
  | cons x args ih =>
    rw [mapM_cons]
    refine .bind (typeArg_bind (S := S) hp x) fun inst q _ ⟨hq, hx⟩ => ?_
    subst hq
    refine .bind ih fun insts r hr ⟨hq, hargs⟩ => ?_
    subst hq
    exact .pure hr ⟨rfl, .cons hx hargs⟩

section Names

variable {b : Binding} (hp : p.Indexed) (hk : p.Keyed)
include hp hk

omit hp in
theorem lookup_own_name {c : ClassId} {m : MethodId} {path : List InstId}
    (h : (p.classes.get c).members.lookup name = .one ⟨.method m, path⟩) :
    (p.classes.get c).members.lookup (p.methods.get m).name = .one ⟨.method m, path⟩ := by
  have hget : (p.classes.get c).members.get name = [⟨.method m, path⟩] := by
    unfold MemberTable.lookup at h
    split at h
    · cases h
    · cases h
      assumption
    · cases h
  have hname := hk c name ⟨.method m, path⟩ (hget ▸ mem_singleton_self _)
  rw [show (p.methods.get m).name = name from hname]
  exact h

theorem readForm_binds (hb : p.Means sc name b) (ts : List NodeId) (i : NodeId) :
    Leads sc (p.Binds S) p (readForm name loc b) fun form q => q.Fits i form ∧
      q.Bound (sc.setting ts) form ∧ ∀ e i, q.places e i form = [] := by
  cases b with
  | var v => exact .pure (.refl hp) ⟨⟨⟨nofun, trivial⟩, rfl, nofun, nofun⟩, hb, fun _ _ => rfl⟩
  | field f =>
    obtain ⟨c, path, howner, hlookup⟩ := hb
    exact .pure (.refl hp)
      ⟨⟨⟨nofun, trivial⟩, rfl, nofun, nofun⟩, ⟨c, f, path, howner, hlookup, rfl⟩, fun _ _ => rfl⟩
  | method m =>
    obtain ⟨c, path, howner, hlookup⟩ := hb
    exact .pure (.refl hp)
      ⟨⟨⟨nofun, trivial⟩, rfl, nofun, nofun⟩, ⟨c, path, howner, lookup_own_name hk hlookup⟩,
        fun _ _ => rfl⟩
  | function f => exact .pure (.refl hp) ⟨⟨⟨nofun, hb⟩, rfl, nofun, nofun⟩, trivial, fun _ _ => rfl⟩
  | cls c =>
    refine .bind (instantiate_binds (S := S) (a := p.formals sc.owner) hp hb (forall_mem_nil _))
      fun inst q hq ⟨hinst, hget⟩ => ?_
    refine .pure hq ⟨⟨⟨nofun, hinst.valid⟩, rfl, nofun, nofun⟩,
      ⟨inst, rfl, by rw [hget], by rw [hget]; exact .nil, ?_⟩, fun _ _ => rfl⟩
    rw [hq.formals]
    exact hinst
  | classParam a =>
    have hvalid := valid_of_formals hp hb
    have hoffers : p.Offers (p.formals sc.owner) (.param a) := ⟨hb, hvalid⟩
    have hintern := intern_binds (S := S) hp hoffers (forall_mem_nil _) ⟨hvalid, rfl⟩
    have hget := get_intern_self p.insts ⟨.param a, []⟩
    refine .bind (.onProgram (Q := fun inst q => q.Within (p.formals sc.owner) inst ∧
      q.insts.get inst = ⟨.param a, []⟩) hintern.1 ⟨hintern.2, hget⟩)
      fun inst q hq ⟨hinst, hget⟩ => ?_
    refine .pure hq ⟨⟨⟨nofun, hinst.valid⟩, rfl, nofun, nofun⟩,
      ⟨inst, rfl, by rw [hget], by rw [hget]; exact .nil, ?_⟩, fun _ _ => rfl⟩
    rw [hq.formals]
    exact hinst

omit hk in
theorem writeForm_binds {value : NodeId} (hb : p.Means sc name b) (hv : p.nodes.Valid value)
    (hi : value.index < i.index) (ts : List NodeId) :
    Leads sc (p.Binds S) p (writeForm name value loc b) fun form q => q = p ∧ p.Fits i form ∧
      p.Bound (sc.setting ts) form ∧ ∀ e i, p.places e i form = [(e, value)] := by
  have hone : ∀ c ∈ [value], p.nodes.Valid c := forall_mem_singleton.2 hv
  have hless : ∀ c ∈ [value], c.index < i.index := forall_mem_singleton.2 hi
  cases b with
  | var v => exact .pure (.refl hp) ⟨rfl, ⟨⟨hone, trivial⟩, rfl, nofun, hless⟩, hb, fun _ _ => rfl⟩
  | field f =>
    obtain ⟨c, path, howner, hlookup⟩ := hb
    exact .pure (.refl hp)
      ⟨rfl, ⟨⟨hone, trivial⟩, rfl, nofun, hless⟩, ⟨c, f, path, howner, hlookup, rfl⟩,
        fun _ _ => rfl⟩
  | method _ | function _ | cls _ | classParam _ => exact .fail trivial

end Names

end Resolve

end Program

end ClassLang

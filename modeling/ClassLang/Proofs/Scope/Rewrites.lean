import ClassLang.Proofs.Scope.Enclosing
import ClassLang.Proofs.Scope.Stage

namespace ClassLang

open Arena Pool List

variable {g f : Form} {args : List NodeId}

namespace Form

def isRead : Form → Bool
  | .getVar _ | .getField none _ _ | .delegate none _ | .functionRef _
  | .classRef _ _ [] (some _) =>
    true
  | _ => false

inductive Turns : Form → Form → Prop
  | same (form : Form) : Turns form form
  | name {name : NameId} {form : Form} : form.isRead = true → Turns (.name name) form
  | setVar {name : NameId} {value : NodeId} (v : VarId) : Turns (.setName name value)
      (.setVar v value)
  | setField {name : NameId} {value : NodeId} (f : Option VarId) : Turns (.setName name value)
      (.setField none name f value)
  | callMethod {callee : NodeId} {args : List NodeId} (m : MethodId) (dispatch : Dispatch) :
      Turns (.call callee args) (.callMethod none m args dispatch)
  | callFunction {callee : NodeId} {args : List NodeId} (f : FunctionId) : Turns (.call callee args)
      (.callFunction f args)
  | callClass {callee : NodeId} {args : List NodeId} (name : NameId) (target : Option Target)
      (inst : InstId) :
      Turns (.call callee args) (.classRef name target args (some inst))
  | typeRef {name : NameId} {old : Option Target} {args : List NodeId} (target : Option Target)
      (inst : InstId) :
      Turns (.classRef name old args none) (.classRef name target args (some inst))

theorem Turns.of_read {h : Form} (hgh : g.Turns h) (hread : g.isRead = true) : h = g := by
  cases hgh with
  | same => rfl
  | typeRef _ _ => simp [isRead] at hread
  | _ => cases hread

theorem Turns.to_name {name : NameId} (h : f.Turns (.name name)) : f = .name name := by
  cases h with
  | same => rfl
  | name hread => cases hread

theorem Turns.name_last {h : Form} {name : NameId} (hfg : (Form.name name).Turns g)
    (hne : g ≠ .name name) (hgh : g.Turns h) : h = g := by
  cases hfg with
  | same => exact (hne rfl).elim
  | name hread => exact hgh.of_read hread

theorem Turns.setName_last {h : Form} {name : NameId} {value : NodeId}
    (hfg : (Form.setName name value).Turns g) (hne : g ≠ .setName name value) (hgh : g.Turns h) :
    h = g := by
  cases hfg with
  | same => exact (hne rfl).elim
  | setVar v =>
    cases hgh
    rfl
  | setField f =>
    cases hgh
    rfl

theorem Turns.trans {h : Form} (hfg : f.Turns g) (hgh : g.Turns h) : f.Turns h := by
  cases hfg with
  | same => exact hgh
  | name hread =>
    rw [hgh.of_read hread]
    exact .name hread
  | setVar v =>
    cases hgh
    exact .setVar v
  | setField f =>
    cases hgh
    exact .setField f
  | callMethod m d =>
    cases hgh
    exact .callMethod m d
  | callFunction f =>
    cases hgh
    exact .callFunction f
  | callClass n t i =>
    cases hgh
    exact .callClass n t i
  | typeRef t i =>
    cases hgh
    exact .typeRef t i

theorem Turns.of_classRef {name : NameId} {target : Option Target} {inst : InstId}
    (h : (Form.classRef name target args (some inst)).Turns g) :
    g = .classRef name target args (some inst) := by
  cases h
  rfl

end Form

namespace Program

variable {p0 p q r : Program} {i : NodeId} {form : Form} {inst : InstId}
  {W : List VarId → NodeId → Prop} {K : Location → Prop}

def Sited (p : Program) : Prop := ∀ i inst, p.Refers i inst → p.insts.Valid inst

/-- A node `i` that becomes `form` does so by what its name means, with variables in scope as `W`
allows. The name that a call starts with is bound with the call, unless it stands for a variable. -/
def Decides (p : Program) (W : List VarId → NodeId → Prop) (i : NodeId) (form : Form) : Prop :=
  form = p.form i ∨
    match p.form i with
    | .name name => ∃ vs, W vs i ∧ ∀ v, form = .getVar v ↔ p.Denotes vs name v
    | .setName name value => ∃ vs, W vs i ∧ ∀ v, form = .setVar v value ↔ p.Denotes vs name v
    | .call callee _ =>
      ∃ name vs, p.form callee = .name name ∧ W vs callee ∧ ∀ v, ¬ p.Denotes vs name v
    | _ => True

/-- All that can be reached from `i` with `vs` in scope there is in `W`, and `K` holds of where it
is. -/
def Covers (p : Program) (W : List VarId → NodeId → Prop) (K : Location → Prop) (vs : List VarId)
    (i : NodeId) : Prop :=
  ∀ ws j, p.Reaches vs i ws j → W ws j ∧ K (p.loc j)

/-- `q` is what `p` becomes by binding names in its text, whatever the text is. -/
structure Rewrites (W : List VarId → NodeId → Prop) (p q : Program) : Prop where
  rest : { p with nodes := q.nodes, insts := q.insts } = q
  size : q.nodes.size = p.nodes.size
  locs : ∀ i, q.loc i = p.loc i
  grows : p.insts.Grows q.insts
  forms : ∀ i, (p.form i).Turns (q.form i)
  decides : ∀ i, p.Decides W i (q.form i)
  sited : p.Sited → q.Sited

theorem denotes_congr (hvars : q.vars = p.vars) (hnames : q.names = p.names) (vs : List VarId)
    (name : NameId) (v : VarId) : q.Denotes vs name v ↔ p.Denotes vs name v := by
  rw [Denotes, Innermost, hvars, hnames, Denotes, Innermost]

theorem Decides.trans (h : p.Decides W i (q.form i)) (h' : q.Decides W i (r.form i))
    (hpq : ∀ j, (p.form j).Turns (q.form j)) (hqr : (q.form i).Turns (r.form i))
    (hvars : q.vars = p.vars) (hnames : q.names = p.names) : p.Decides W i (r.form i) := by
  have hdenotes := denotes_congr hvars hnames
  by_cases hsame : q.form i = p.form i
  · unfold Decides at h' ⊢
    rw [hsame] at h'
    refine h'.imp_right fun h' => ?_
    split at h'
    · simpa only [hdenotes] using h'
    · simpa only [hdenotes] using h'
    · obtain ⟨name, vs, hcallee, hvs, hnone⟩ := h'
      have hturn := hpq ‹_›
      rw [hcallee] at hturn
      exact ⟨name, vs, hturn.to_name, hvs, by simpa only [hdenotes] using hnone⟩
    · trivial
  · have hchanged := h.resolve_left hsame
    unfold Decides
    refine .inr ?_
    have hturn := hpq i
    split at hchanged
    · rename_i name hi
      rw [hi] at hturn hsame
      rw [hturn.name_last hsame hqr]
      exact hchanged
    · rename_i name value hi
      rw [hi] at hturn hsame
      rw [hturn.setName_last hsame hqr]
      exact hchanged
    · exact hchanged
    · trivial

section

variable (hvars : q.vars = p.vars) (hlambdas : q.lambdas = p.lambdas)
include hvars hlambdas

/-- A form keeps its parts, but for a call whose name is bound with it. -/
theorem inner_of_turns (hfg : f.Turns g) :
    q.inner g = p.inner f ∨ ∃ callee args, f = .call callee args ∧ g ≠ f ∧ q.inner g = args := by
  cases hfg with
  | same => exact .inl (by simp only [inner, paramTypes, hvars, hlambdas])
  | name hread =>
    left
    unfold Form.isRead at hread
    split at hread <;> first | rfl | cases hread
  | setVar v => exact .inl rfl
  | setField f => exact .inl rfl
  | callMethod m d => exact .inr ⟨_, _, rfl, by simp, rfl⟩
  | callFunction f => exact .inr ⟨_, _, rfl, by simp, rfl⟩
  | callClass n t i => exact .inr ⟨_, _, rfl, by simp, rfl⟩
  | typeRef t i => exact .inl rfl

theorem mem_enclosed_of_turns (hfg : f.Turns g) {vs : List VarId} {x : List VarId × NodeId}
    (hx : x ∈ q.enclosed vs g) : x ∈ p.enclosed vs f := by
  cases hfg with
  | same => simpa only [enclosed, paramTypes, hvars, hlambdas] using hx
  | name hread =>
    exfalso
    unfold Form.isRead at hread
    split at hread
    · cases hx
    · cases hx
    · cases hx
    · cases hx
    · cases hx
    · cases hread
  | setVar v => exact hx
  | setField f => exact hx
  | callMethod m d => exact mem_cons_of_mem _ hx
  | callFunction f => exact mem_cons_of_mem _ hx
  | callClass n t i => exact mem_cons_of_mem _ hx
  | typeRef t i => exact hx

/-- Binding a name takes no part into a node. -/
theorem Reaches.of_turns (hforms : ∀ i, (p.form i).Turns (q.form i))
    {us vs : List VarId} {j : NodeId} (h : q.Reaches us i vs j) : p.Reaches us i vs j := by
  induction h with
  | here => exact .here
  | inside hx _ ih => exact .inside (mem_enclosed_of_turns hvars hlambdas (hforms _) hx) ih
  | type hl hx _ ih =>
    rename_i i _ _ l _
    have hturn := hforms i
    rw [hl] at hturn
    have hi : p.form i = .lambda l := by
      generalize p.form i = f at hturn
      cases hturn with
      | same => rfl
      | name hread => cases hread
    rw [paramTypes, hvars, hlambdas] at hx
    exact .type hi hx ih

end

namespace Covers

variable {us vs : List VarId} {x : NodeId}

theorem here (h : p.Covers W K vs i) : W vs i := (h vs i .here).1

theorem loc (h : p.Covers W K vs i) : K (p.loc i) := (h vs i .here).2

theorem inside (h : p.Covers W K us i) (hx : (vs, x) ∈ p.enclosed us (p.form i)) :
    p.Covers W K vs x :=
  fun ws j hj => h ws j (.inside hx hj)

theorem type {l : LambdaId} (h : p.Covers W K us i) (hl : p.form i = .lambda l)
    (hx : x ∈ p.paramTypes (p.lambdas.get l).params) : p.Covers W K vs x :=
  fun ws j hj => h ws j (.type hl hx hj)

/-- Children are in the scope of their parent, unless they are in a new one. -/
theorem child (h : p.Covers W K us i)
    (hform : p.enclosed us (p.form i) = (p.form i).children.map (us, ·))
    (hx : x ∈ (p.form i).children) : p.Covers W K us x :=
  h.inside (hform ▸ mem_map_of_mem hx)

end Covers

namespace Rewrites

@[refl] theorem refl (p : Program) : p.Rewrites W p :=
  ⟨rfl, rfl, fun _ => rfl, .refl _, fun _ => .same _, fun _ => .inl rfl, id⟩

theorem insts {t : InstTable} (h : p.insts.Grows t) : p.Rewrites W { p with insts := t } where
  rest := rfl
  size := rfl
  locs _ := rfl
  grows := h
  forms _ := .same _
  decides _ := .inl rfl
  sited hp i inst href := h.valid (hp i inst href)

theorem setForm (h : p.Rewrites W q) (hform : (p.form i).Turns form) (hdecides : p.Decides W i form)
    (hinst : ∀ name target args inst, form = .classRef name target args (some inst) →
      q.insts.Valid inst) : p.Rewrites W (q.setForm i form) := by
  have hget (j : NodeId) : (q.setForm i form).form j = if i = j ∧
      q.nodes.Valid i then form else q.form j := by
    rw [Program.form, Program.setForm, get_modify]
    split <;> rfl
  refine ⟨by rw [← h.rest]; rfl, (size_modify _ _ _).trans h.size, fun j => ?_, h.grows, fun j =>
    ?_, fun j => ?_,
    fun hp j inst href => ?_⟩
  · exact (get_modify_eq Node.loc (fun _ => by rfl) j).trans (h.locs j)
  · rw [hget]
    split
    · rename_i hj
      exact hj.1 ▸ hform
    · exact h.forms j
  · rw [hget]
    split
    · rename_i hj
      exact hj.1 ▸ hdecides
    · exact h.decides j
  · obtain ⟨name, target, args, href⟩ := href
    rw [hget] at href
    split at href
    · exact hinst name target args inst href
    · exact h.sited hp j inst ⟨name, target, args, href⟩

section

variable (h : p.Rewrites W q)
include h

theorem classes : q.classes = p.classes := (congrArg Program.classes h.rest).symm

theorem params : q.params = p.params := (congrArg Program.params h.rest).symm

theorem vars : q.vars = p.vars := (congrArg Program.vars h.rest).symm

theorem lambdas : q.lambdas = p.lambdas := (congrArg Program.lambdas h.rest).symm

theorem names : q.names = p.names := (congrArg Program.names h.rest).symm

theorem refers (href : p.Refers i inst) : q.Refers i inst := by
  obtain ⟨name, target, args, href⟩ := href
  have hform := h.forms i
  rw [href] at hform
  exact ⟨name, target, args, hform.of_classRef⟩

theorem akin : p.Akin q := by
  refine ⟨?_, h.size⟩
  rw [← h.rest]
  rfl

theorem trans (h' : q.Rewrites W r) : p.Rewrites W r where
  rest := by rw [← h'.rest, ← h.rest]
  size := h'.size.trans h.size
  locs i := (h'.locs i).trans (h.locs i)
  grows := h.grows.trans h'.grows
  forms i := (h.forms i).trans (h'.forms i)
  decides i := (h.decides i).trans (h'.decides i) h.forms (h'.forms i) h.vars h.names
  sited hp := h'.sited (h.sited hp)

theorem covers {vs : List VarId} {V : List VarId → NodeId → Prop} (hp : p.Covers V K vs i) :
    q.Covers V K vs i :=
  fun ws j hj => h.locs j ▸ hp ws j (hj.of_turns h.vars h.lambdas h.forms)

end

end Rewrites

namespace Resolve

variable {α β : Type} {sc : Scope} {name : NameId} {loc : Location} {m : Resolve α}
  {k : α → Resolve β} {Q : α → Program → Prop} {P : β → Program → Prop} {xs : List NodeId}

section

variable (h : p0.Rewrites W p) (hm : LeadsOr (K ·.loc) sc (p.Rewrites W) p m Q)
include h hm

theorem rewrites_call
    (hk : ∀ a q, p0.Rewrites W q → p.Rewrites W q → Q a q →
      LeadsOr (K ·.loc) sc (p0.Rewrites W) q (k a) P) :
    LeadsOr (K ·.loc) sc (p0.Rewrites W) p (m >>= k) P :=
  .bind hm fun a q hq => hk a q (h.trans hq) hq

theorem rewrites_from : LeadsOr (K ·.loc) sc (p0.Rewrites W) p m Q :=
  hm.imp fun _ _ hq hQ => ⟨h.trans hq, hQ⟩

end

theorem rewrites_mapM {g : NodeId → Resolve α}
    (hg : ∀ x ∈ xs, ∀ q, p.Rewrites W q → LeadsOr (K ·.loc) sc (q.Rewrites W) q (g x)
      fun _ _ => True) : LeadsOr (K ·.loc) sc (p.Rewrites W) p (xs.mapM g) fun _ _ => True := by
  induction xs generalizing p with
  | nil => exact .pure (.refl p) trivial
  | cons x xs ih =>
    rw [mapM_cons]
    refine rewrites_call (.refl p) (hg x mem_cons_self p (.refl p)) fun _ q hq _ _ => ?_
    exact rewrites_call hq (ih fun y hy r hr => hg y (mem_cons_of_mem x hy) r (hq.trans hr))
      fun _ r hr _ _ => .pure hr trivial

theorem lookup_rewrites (hloc : K loc) :
    LeadsOr (K ·.loc) sc (p.Rewrites W) p (lookup name loc) fun b q => q = p ∧
      sc.lookup p name = .ok b := by
  refine .read (.program ?_)
  split
  · rename_i b hb
    exact .pure (.refl p) ⟨rfl, hb⟩
  · exact .fail hloc

theorem instantiate_rewrites (hloc : K loc) (target : Target) (args : List InstId) :
    LeadsOr (K ·.loc) sc (p.Rewrites W) p (instantiate target args loc) fun i q =>
      q.insts.Valid i := by
  unfold instantiate
  extract_lets finish
  have hfinish : LeadsOr (K ·.loc) sc (p.Rewrites W) p (finish ()) fun i q => q.insts.Valid i := by
    refine .program ?_
    split
    · rename_i i insts hi
      have hintern : p.insts.intern ⟨target, args⟩ = (i, insts) := by
        unfold InstTable.instantiate? at hi
        split at hi
        · cases hi
        · exact Option.some.inj hi
      have hgrows := grows_intern p.insts ⟨target, args⟩
      have hvalid := valid_intern p.insts ⟨target, args⟩
      rw [hintern] at hgrows hvalid
      refine .bind (.edit (.insts hgrows)) fun _ q hq he => .pure hq ?_
      subst he
      exact hvalid
    · exact .fail hloc
  split
  · refine .program ?_
    extract_lets expected
    split
    · exact .fail_bind hloc
    · exact hfinish
  · exact hfinish

variable {V : List VarId → NodeId → Prop} {us : List VarId}

theorem typeRefUpTo_rewrites (n : Nat) (hV : p.Covers V K us i) :
    LeadsOr (K ·.loc) sc (p.Rewrites W) p (typeRefUpTo n i) fun inst q => Refers q i inst ∧
      (p.Sited → q.insts.Valid inst) := by
  induction n generalizing i p with
  | zero => exact .program (.fail hV.loc)
  | succ n ih =>
    unfold typeRefUpTo
    refine .program ?_
    extract_lets loc
    refine .program ?_
    split
    · rename_i name target args inst hi
      exact .pure (.refl p) ⟨⟨name, target, args, hi⟩, fun hp => hp i inst ⟨name, target, args, hi⟩⟩
    · rename_i name old args hi
      refine .read (.program ?_)
      split
      · exact .fail hV.loc
      · rename_i target _
        have hparts (x : NodeId) (hx : x ∈ args) : p.Covers V K us x :=
          hV.inside (by rw [hi]; exact mem_map_of_mem hx)
        refine rewrites_call (.refl p)
          (rewrites_mapM fun x hx q hq => (ih (hq.covers (hparts x hx))).post fun _ _ _ _ =>
            trivial) fun insts q hq _ _ =>
          rewrites_call hq (instantiate_rewrites hV.loc target insts) fun inst r hr _ hinst => ?_
        have hset : p.Rewrites W (r.setForm i (.classRef name (some target) args (some inst))) := by
          refine hr.setForm (hi ▸ .typeRef (some target) inst) (.inr (by rw [hi]; trivial)) ?_
          rintro _ _ _ _ ⟨⟩
          exact hinst
        have hvalid : r.nodes.Valid i := by
          rw [Valid, hr.size]
          exact valid_of_form hi nofun
        refine .bind (.edit hset) fun _ s hs he => .pure hs ?_
        subst he
        refine ⟨⟨name, some target, args, ?_⟩, fun _ => hinst⟩
        exact congrArg Node.form (get_modify_self hvalid)
    · exact .fail hV.loc

theorem typeRef_rewrites (hV : p.Covers V K us i) :
    LeadsOr (K ·.loc) sc (p.Rewrites W) p (typeRef i) fun inst q => Refers q i inst ∧
      (p.Sited → q.insts.Valid inst) :=
  .program (typeRefUpTo_rewrites _ hV)

theorem readForm_rewrites (hloc : K loc) (b : Binding) :
    LeadsOr (K ·.loc) sc (p.Rewrites W) p (readForm name loc b) fun form q => form.isRead = true ∧
      (∀ v, form = .getVar v ↔ b = .var v) ∧
      ∀ name target args inst, form = .classRef name target args (some inst) →
      q.insts.Valid inst := by
  cases b with
  | cls c =>
    refine .bind (instantiate_rewrites hloc (.cls c) []) fun inst q hq hinst =>
      .pure hq ⟨rfl, by simp, ?_⟩
    rintro _ _ _ _ ⟨⟩
    exact hinst
  | classParam a =>
    refine .bind (Q := fun inst q => q.insts.Valid inst)
      (.onProgram (.insts (grows_intern _ _)) (valid_intern _ _)) fun inst q hq hinst =>
      .pure hq ⟨rfl, by simp, ?_⟩
    rintro _ _ _ _ ⟨⟩
    exact hinst
  | _ => exact .pure (.refl p) ⟨rfl, by simp, nofun⟩

theorem writeForm_rewrites (hloc : K loc) (value : NodeId) (b : Binding) :
    LeadsOr (K ·.loc) sc (p.Rewrites W) p (writeForm name value loc b) fun form q => q = p ∧
      (Form.setName name value).Turns form ∧ (∀ v, form = .setVar v value ↔ b = .var v) ∧
      ∀ name target args inst, form ≠ .classRef name target args inst := by
  cases b with
  | var v => exact .pure (.refl p) ⟨rfl, .setVar v, by simp, nofun⟩
  | field f => exact .pure (.refl p) ⟨rfl, .setField (some f), by simp, nofun⟩
  | _ => exact .fail hloc

theorem typeArg_rewrites {x : NodeId} (hloc : K (p.loc x)) :
    LeadsOr (K ·.loc) sc (p.Rewrites W) p (typeArg x) fun _ _ => True := by
  refine .program ?_
  split
  · exact .pure (.refl p) trivial
  · exact .program (.fail hloc)

theorem callByName_rewrites {callee : NodeId} (h : p.Rewrites W q)
    (hi : p.form i = .call callee args) (hcallee : q.form callee = .name name) (hloc : K (p.loc i))
    (hW : ∀ x ∈ callee :: args, p.Covers W K sc.locals x) :
    LeadsOr (K ·.loc) sc (p.Rewrites W) q (callByName i callee name args) fun _ _ => True := by
  have hname : p.form callee = .name name := by
    have hturn := h.forms callee
    rw [hcallee] at hturn
    exact hturn.to_name
  have hcall {r : Program} {form : Form} (hr : p.Rewrites W r)
      (hform : (Form.call callee args).Turns form) (hnone : ∀ v, ¬ p.Denotes sc.locals name v)
      (hinst : ∀ name target args inst, form = .classRef name target args (some inst) →
        r.insts.Valid inst) : LeadsOr (K ·.loc) sc (p.Rewrites W) r
      (Pass.edit (·.setForm i form) : Resolve Unit) fun _ _ => True := by
    have hdecides : p.Decides W i form :=
      .inr (by rw [hi]; exact ⟨name, sc.locals, hname, (hW callee mem_cons_self).here, hnone⟩)
    exact (LeadsOr.edit (hr.setForm (hi ▸ hform) hdecides hinst)).post fun _ _ _ _ => trivial
  unfold callByName
  refine .program ?_
  extract_lets loc
  have hloc' : K loc := by rwa [← h.locs] at hloc
  refine .program ?_
  extract_lets calleeLoc
  have hcalleeLoc : K calleeLoc := (h.covers (hW callee mem_cons_self)).loc
  refine rewrites_call h (lookup_rewrites hcalleeLoc) fun b r hr _ he => ?_
  obtain ⟨rfl, hlookup⟩ := he
  have hdenotes (v : VarId) : b = .var v ↔ p.Denotes sc.locals name v := by
    rw [← denotes_congr h.vars h.names]
    exact Scope.lookup_var hlookup v
  have hnone (hb : ∀ v, b ≠ .var v) (v : VarId) : ¬ p.Denotes sc.locals name v :=
    fun hv => hb v ((hdenotes v).2 hv)
  split
  · rename_i c
    refine rewrites_call h (rewrites_mapM fun x hx q hq => ?_) fun insts s hs _ _ => ?_
    · exact typeArg_rewrites (hq.covers (h.covers (hW x (mem_cons_of_mem callee hx)))).loc
    refine rewrites_call hs (instantiate_rewrites hloc' (.cls c) insts) fun inst t ht _ hinst =>
      hcall ht (.callClass ..) (hnone nofun) ?_
    rintro _ _ _ _ ⟨⟩
    exact hinst
  · exact .fail hloc'
  · exact hcall h (.callMethod ..) (hnone nofun) nofun
  · exact hcall h (.callFunction _) (hnone nofun) nofun
  · refine rewrites_call h (readForm_rewrites hcalleeLoc _) fun form s hs _ ⟨hread, hvar, hinst⟩ =>
      ?_
    refine (LeadsOr.edit (hs.setForm ?_ ?_ hinst)).post fun _ _ _ _ => trivial
    · rw [hname]
      exact .name hread
    · refine .inr ?_
      rw [hname]
      exact ⟨sc.locals, (hW callee mem_cons_self).here, fun v => (hvar v).trans (hdenotes v)⟩

section Parts

variable {visit : NodeId → Resolve Unit} (hvisit : ∀ sc x p, p.Covers W K sc.locals x →
  LeadsOr (K ·.loc) sc (p.Rewrites W) p (visit x) fun _ _ => True)
include hvisit

theorem rewrites_forM (hxs : ∀ x ∈ xs, p.Covers W K sc.locals x) :
    LeadsOr (K ·.loc) sc (p.Rewrites W) p (xs.forM visit) fun _ _ => True :=
  .forM (.refl p) fun x hx q hq => rewrites_from hq (hvisit sc x q (hq.covers (hxs x hx)))

theorem rewrites_optional {o : Option NodeId} (ho : ∀ x ∈ o.toList, p.Covers W K sc.locals x) :
    LeadsOr (K ·.loc) sc (p.Rewrites W) p (optional visit o) fun _ _ => True := by
  cases o with
  | none => exact .pure (.refl p) trivial
  | some x => exact hvisit sc x p (ho x (mem_singleton_self x))

/-- The body of a lambda sees the parameters, the last one first. -/
theorem lambdaParams_rewrites {body : NodeId} (vs : List VarId)
    (htypes : ∀ us, ∀ x ∈ p.paramTypes vs, p.Covers W K us x)
    (hbody : p.Covers W K (vs.reverse ++ sc.locals) body) :
    LeadsOr (K ·.loc) sc (p.Rewrites W) p (lambdaParams visit (visit body) vs) fun _ _ => True := by
  induction vs generalizing sc p with
  | nil => exact hvisit sc body p hbody
  | cons v vs ih =>
    rw [paramTypes_cons] at htypes
    refine .program (rewrites_call (.refl p)
      (rewrites_optional hvisit fun x hx => htypes _ x (mem_append_left _ hx)) fun _ q hq _ _ =>
      rewrites_from hq (.withReader (ih (fun us x hx => ?_) (hq.covers ?_))))
    · rw [paramTypes, hq.vars] at hx
      exact hq.covers (htypes us x (mem_append_right _ hx))
    · rw [reverse_cons, append_assoc] at hbody
      exact hbody

end Parts

theorem visitUpTo_rewrites (n : Nat) (sc : Scope) (i : NodeId) (p : Program)
    (hW : p.Covers W K sc.locals i) :
    LeadsOr (K ·.loc) sc (p.Rewrites W) p (visitUpTo n i) fun _ _ => True := by
  induction n generalizing sc i p with
  | zero => exact .pure (.refl p) trivial
  | succ n ih =>
    unfold visitUpTo
    refine .program ?_
    extract_lets loc
    refine .program ?_
    split
    · rename_i name hi
      refine rewrites_call (.refl p) (lookup_rewrites hW.loc) fun b q hq _ ⟨he, hlookup⟩ => ?_
      subst he
      refine rewrites_call hq (readForm_rewrites hW.loc b) fun form r hr _ ⟨hread, hvar, hinst⟩ =>
        ?_
      have hdecides : q.Decides W i form := by
        refine .inr ?_
        rw [hi]
        exact ⟨sc.locals, hW.here, fun v => (hvar v).trans (Scope.lookup_var hlookup v)⟩
      exact (LeadsOr.edit (hr.setForm (hi ▸ .name hread) hdecides hinst)).post
        fun _ _ _ _ => trivial
    · rename_i name value hi
      have hvalue : p.Covers W K sc.locals value :=
        hW.inside (by rw [hi]; exact mem_singleton_self _)
      refine rewrites_call (.refl p) (ih sc value p hvalue) fun _ q hq _ _ => ?_
      refine rewrites_call hq (lookup_rewrites hW.loc) fun b r hr _ ⟨he, hlookup⟩ => ?_
      subst he
      refine rewrites_call hr (writeForm_rewrites hW.loc value b)
        fun form s hs _ ⟨he, hform, hvar, href⟩ => ?_
      subst he
      have hdecides : p.Decides W i form := by
        refine .inr ?_
        rw [hi]
        exact ⟨sc.locals, hW.here, fun v =>
          (hvar v).trans ((Scope.lookup_var hlookup v).trans (denotes_congr hs.vars hs.names ..))⟩
      exact (LeadsOr.edit (hs.setForm (hi ▸ hform) hdecides fun n t a x he =>
        absurd he (href n t a (some x)))).post fun _ _ _ _ => trivial
    · rename_i callee args hi
      have hparts (x : NodeId) (hx : x ∈ callee :: args) : p.Covers W K sc.locals x :=
        hW.inside (by rw [hi]; exact mem_map_of_mem hx)
      refine rewrites_call (.refl p) (rewrites_forM ih fun x hx => hparts x (mem_cons_of_mem _ hx))
        fun _ q hq _ _ => .program ?_
      split
      · rename_i name hname
        exact callByName_rewrites hq hi hname hW.loc hparts
      · exact rewrites_from hq (ih sc callee q (hq.covers (hparts callee mem_cons_self)))
    · exact rewrites_call (.refl p) (typeRef_rewrites hW) fun _ q hq _ _ => .pure hq trivial
    · rename_i v body hi
      refine .program (rewrites_call (.refl p) (rewrites_optional ih fun x hx => ?_)
        fun _ q hq _ _ => rewrites_from hq ?_)
      · exact hW.inside (by rw [hi]; exact mem_append_left _ (mem_map_of_mem hx))
      · refine .withReader (rewrites_forM ih fun x hx => hq.covers (hW.inside ?_))
        rw [hi]
        exact mem_append_right _ (mem_map_of_mem hx)
    · rename_i cond yes b hi
      refine rewrites_call (.refl p) (ih sc cond p (hW.inside ?_)) fun _ q hq _ _ =>
        rewrites_from hq (.withReader (ih _ yes q (hq.covers (hW.inside ?_))))
      · rw [hi]
        exact mem_cons_self
      · rw [hi]
        exact mem_cons_of_mem _ (mem_singleton_self _)
    · rename_i l hi
      refine .program (lambdaParams_rewrites ih _ (fun us x hx => hW.type hi hx) (hW.inside ?_))
      rw [hi]
      exact mem_append_right _ (mem_singleton_self _)
    · refine .read ?_
      split
      · exact .fail hW.loc
      · exact .pure (.refl p) trivial
    · rename_i hlet hguard hlambda _
      refine rewrites_forM ih fun x hx => hW.child ?_ hx
      cases hi : p.form i with
      | letIn v body => exact (hlet v body hi).elim
      | guard c y b => exact (hguard c y b hi).elim
      | lambda l => exact (hlambda l hi).elim
      | _ => rfl

theorem visit_rewrites (sc : Scope) (i : NodeId) (p : Program) (hW : p.Covers W K sc.locals i) :
    LeadsOr (K ·.loc) sc (p.Rewrites W) p (visit i) fun _ _ => True :=
  .program (visitUpTo_rewrites _ sc i p hW)

end Resolve

end Program

end ClassLang

import ClassLang.Proofs.Scope.Names

namespace ClassLang.Program.Resolve

open List

variable {sc : Scope} {p q r : Program} {name : NameId} {i : NodeId} {e : Setting} {n : Nat}
  {z : Zone} {v : VarId} {args : List NodeId}

theorem paramTypes_cons (p : Program) (v : VarId) (vs : List VarId) :
    p.paramTypes (v :: vs) = (p.vars.get v).init.toList ++ p.paramTypes vs := by
  cases h : (p.vars.get v).init with
  | none => simp [paramTypes, h]
  | some d => simp [paramTypes, h]

theorem map_snd_pair (xs : List NodeId) (e : Setting) : (xs.map (e, ·)).map Prod.snd = xs := by
  simp [Function.comp_def]

theorem snd_mem_of_pair {xs : List NodeId} {y : Setting × NodeId} (hy : y ∈ xs.map (e, ·)) :
    y.2 ∈ xs := by
  obtain ⟨w, hw, rfl⟩ := mem_map.1 hy
  exact hw

theorem le_of_seeing {vs : List VarId} {e' : Setting} (h : (e.seeing vs).Le e') : e.Le e' :=
  ⟨h.owner, h.targets, fun _ hv => h.vars (mem_append_right _ hv)⟩

theorem le_next {vs : List VarId} {ts : List NodeId} (h : ((sc.setting ts).seeing (v :: vs)).Le e) :
    ((({ sc with locals := v :: sc.locals } : Scope).setting ts).seeing vs).Le e := by
  refine ⟨h.owner, h.targets, fun u hu => h.vars ?_⟩
  simp only [Setting.seeing, Scope.setting, mem_append, mem_cons] at hu ⊢
  tauto

abbrev Visits (sc : Scope) (p : Program) (m : Resolve Unit) (xs : List (Setting × NodeId)) : Prop :=
  Leads sc (p.Binds fun j => ∃ x ∈ xs, p.Below x.2 j) p m fun _ q =>
    ∀ x ∈ xs, q.Scoped (p.Below x.2) x.1 x.2

variable {m k : Resolve Unit} {xs ys : List (Setting × NodeId)} {x : NodeId}
  {result body : Option NodeId}

theorem Visits.one
    (h : Leads sc (p.Binds (p.Below x)) p m fun _ q =>
      q.Scoped (p.Below x) (sc.setting z.targets) x) (hle : (sc.setting z.targets).Le e) :
    Visits sc p m [(e, x)] :=
  h.imp fun _ _ hq hx =>
    ⟨hq.mono fun _ hj => ⟨(e, x), mem_singleton_self _, hj⟩,
      forall_mem_singleton.2 (hx.mono (fun _ => id) hle)⟩

theorem Visits.seeing (h : Visits { sc with locals := v :: sc.locals } p m xs) :
    Visits sc p (seeing [v] m) xs := h

theorem Visits.none (hp : p.Indexed) : Visits sc p (pure ()) [] := .pure (.refl hp) nofun

theorem Visits.append (hapart : ((xs ++ ys).map Prod.snd).Pairwise p.Apart)
    (htrees : ∀ y ∈ ys, ∃ n z, p.Tree n z y.2) (hm : Visits sc p m xs)
    (hk : ∀ q S, p.Binds S q → (ys.map Prod.snd).Pairwise q.Apart →
      (∀ y ∈ ys, ∀ n z, p.Tree n z y.2 → q.Tree n z y.2) → Visits sc q k ys) :
    Visits sc p (m >>= fun _ => k) (xs ++ ys) := by
  have hset (zs : List (Setting × NodeId)) (q : Program) :
      (fun j => ∃ x ∈ zs, q.Below x.2 j) = fun j => ∃ x ∈ zs.map Prod.snd, q.Below x j := by
    funext j
    refine propext ⟨fun ⟨x, hx, hj⟩ => ⟨x.2, mem_map_of_mem hx, hj⟩, fun ⟨_, hx, hj⟩ => ?_⟩
    obtain ⟨x, hmem, rfl⟩ := mem_map.1 hx
    exact ⟨x, hmem, hj⟩
  unfold Visits at hm hk ⊢
  rw [hset] at hm ⊢
  rw [map_append] at hapart ⊢
  refine .bind hm fun _ q hq hxs => ?_
  obtain ⟨hsame, hapart', hbelow⟩ := hq.rest_trees hapart fun y hy => by
    obtain ⟨x, hx, rfl⟩ := mem_map.1 hy
    exact htrees x hx
  have hys := hk q _ hq hapart' fun y hy => hsame y.2 (mem_map_of_mem hy)
  rw [hset] at hys
  refine hys.imp fun _ r hr hys => ?_
  obtain ⟨hboth, hkeep⟩ := hq.both hapart hbelow hr
  refine ⟨hboth, forall_mem_append.2 ⟨fun x hx => ?_, fun y hy => ?_⟩⟩
  · exact hkeep x.2 (mem_map_of_mem hx) x.1 (hxs x hx)
  · exact (hys y hy).mono (hbelow y.2 (mem_map_of_mem hy)) (.refl y.1)

theorem Visits.node (htree : p.Tree n z i) (hm : Visits sc p m (p.places e i (p.form i)))
    (hbound : ∀ r S, p.Binds S r → (∀ x ∈ p.places e i (p.form i), r.Scoped (p.Below x.2) x.1 x.2) →
      r.Bound e (p.form i)) :
    Leads sc (p.Binds (p.Below i)) p m fun _ q => q.Scoped (p.Below i) e i := by
  refine hm.imp fun _ r hr hparts => htree.scoped (hr.mono ?_) (hbound r _ hr hparts) fun x hx => ?_
  · rintro j ⟨x, hx, hj⟩
    exact ⟨x.2, mem_places hx, hj⟩
  · rw [hr.places] at hx
    exact hparts x hx

section Parts

variable {vs : List VarId} {visit : NodeId → Resolve Unit} (hp : p.Prepared n)
  (hvisit : ∀ sc x z p e, p.Prepared n → p.Tree n z x → z.owner = sc.owner →
    (sc.setting z.targets).Le e → Visits sc p (visit x) [(e, x)]) (howner : z.owner = sc.owner)
include hp hvisit howner

theorem forM_visits {xs : List NodeId} (hapart : xs.Pairwise p.Apart)
    (htrees : ∀ x ∈ xs, p.Tree n z x) (hle : (sc.setting z.targets).Le e) :
    Visits sc p (xs.forM visit) (xs.map (e, ·)) := by
  induction xs generalizing p with
  | nil => exact .none hp.indexed
  | cons x xs ih =>
    change Visits sc p _ ([(e, x)] ++ xs.map (e, ·))
    refine .append ?_ (fun y hy => ⟨n, z, htrees _ (mem_cons_of_mem x (snd_mem_of_pair hy))⟩)
      (hvisit sc x z p e hp (htrees x mem_cons_self) howner hle) fun q S hq hapart' hsame => ?_
    · rw [map_append, map_snd_pair]
      exact hapart
    · rw [map_snd_pair] at hapart'
      exact ih (hq.prepared hp) hapart' fun y hy =>
        hsame (e, y) (mem_map_of_mem hy) n z (htrees y (mem_cons_of_mem x hy))

theorem optional_visits {o : Option NodeId} (htree : ∀ x ∈ o.toList, p.Tree n z x)
    (hle : (sc.setting z.targets).Le e) : Visits sc p (optional visit o) (o.toList.map (e, ·)) := by
  cases o with
  | none => exact .none hp.indexed
  | some x => exact hvisit sc x z p e hp (htree x (mem_singleton_self x)) howner hle

theorem lambdaParams_visits {body : NodeId} (vs : List VarId)
    (hapart : (p.paramTypes vs ++ [body]).Pairwise p.Apart)
    (htrees : ∀ x ∈ p.paramTypes vs ++ [body], p.Tree n z x)
    (hle : ((sc.setting z.targets).seeing vs).Le e) :
    Visits sc p (lambdaParams visit (visit body) vs) ((p.paramTypes vs ++ [body]).map (e, ·)) := by
  induction vs generalizing sc p with
  | nil => exact hvisit sc body z p e hp (htrees body mem_cons_self) howner hle
  | cons v vs ih =>
    rw [paramTypes_cons, append_assoc] at hapart htrees ⊢
    rw [map_append]
    have hrest (x : NodeId) (hx : x ∈ p.paramTypes vs ++ [body]) := htrees x (mem_append_right _ hx)
    refine .program (Visits.append ?_ (fun y hy => ⟨n, z, hrest _ (snd_mem_of_pair hy)⟩)
      (optional_visits hp hvisit howner (fun x hx => htrees x (mem_append_left _ hx))
        (le_of_seeing hle)) fun q S hq hapart' hsame => .seeing ?_)
    · rw [map_append, map_snd_pair, map_snd_pair]
      exact hapart
    · have hvs : q.paramTypes vs = p.paramTypes vs := by simp only [paramTypes, hq.vars]
      rw [map_snd_pair] at hapart'
      rw [← hvs] at hapart' hsame hrest ⊢
      exact ih (hq.prepared hp) howner hapart'
        (fun x hx => hsame (e, x) (mem_map_of_mem hx) n z (hrest x hx)) (le_next hle)

theorem tail_visits (hapart : (result.toList ++ body.toList).Pairwise p.Apart)
    (htrees : ∀ x ∈ result.toList ++ body.toList, p.Tree n z x)
    (hle : (sc.setting z.targets).Le e) :
    Visits sc p (do optional visit result; optional visit body)
      ((result.toList ++ body.toList).map (e, ·)) := by
  have hbody (x : NodeId) (hx : x ∈ body.toList) := htrees x (mem_append_right _ hx)
  rw [map_append]
  refine .append ?_ (fun y hy => ⟨n, z, hbody _ (snd_mem_of_pair hy)⟩)
    (optional_visits hp hvisit howner (fun x hx => htrees x (mem_append_left _ hx)) hle)
    fun q S hq _ hsame => ?_
  · simpa only [map_append, map_snd_pair] using hapart
  · exact optional_visits (hq.prepared hp) hvisit howner
      (fun x hx => hsame (e, x) (mem_map_of_mem hx) n z (hbody x hx)) hle

end Parts

section Calls

variable {callee : NodeId} {form : Form} (hp : p.Indexed) (htree : p.Tree n z i)
  (hi : p.form i = .call callee args) (hq : p.Binds (fun j => ∃ x ∈ args, p.Below x j) q)
  (hargs : ∀ x ∈ args, q.Scoped (p.Below x) (sc.setting z.targets) x)

include hp htree hi hq hargs

/-- The call itself becomes something that has the arguments for its parts. -/
theorem setCall_binds (hr : p.Binds (p.Below i) r) (hqr : q.Binds (fun _ => False) r)
    (hfits : r.Fits i form) (hbound : r.Bound (sc.setting z.targets) form)
    (hparts : r.places (sc.setting z.targets) i form = args.map (sc.setting z.targets, ·)) :
    Leads sc (p.Binds (p.Below i)) r (Pass.edit (·.setForm i form) : Resolve Unit) fun _ r =>
      r.Scoped (p.Below i) (sc.setting z.targets) i := by
  have hinner (x : NodeId) (hx : x ∈ args) : x ∈ p.inner (p.form i) := by
    rw [hi]
    exact mem_cons_of_mem _ hx
  have hform : r.form i = .call callee args :=
    (hqr.forms i id).trans
      ((hq.forms i fun ⟨x, hx, hx'⟩ => htree.not_below (hinner x hx) hx').trans hi)
  obtain ⟨hbinds, _, hscoped⟩ := htree.scoped_setForm hr hp (valid_of_form hi nofun)
    (by rw [hi]; rfl) (by simp [hform, Form.isType]) hfits hbound fun x hx => by
      rw [hparts] at hx
      obtain ⟨y, hy, rfl⟩ := mem_map.1 hx
      exact ⟨hinner y hy, hqr.scoped (hargs y hy) fun _ _ => id⟩
  refine (LeadsOr.edit hbinds).post fun _ s _ hs => ?_
  subst hs
  exact hscoped

/-- A callee that is read takes the place of its name, and the call stays as it is. -/
theorem setCallee_binds (hcallee : p.form callee = .name name) (hqr : q.Binds (fun _ => False) r)
    (hfits : r.Fits callee form) (hbound : r.Bound (sc.setting z.targets) form)
    (hleaf : r.places (sc.setting z.targets) callee form = []) :
    Leads sc (p.Binds (p.Below i)) r (Pass.edit (·.setForm callee form) : Resolve Unit) fun _ r =>
      r.Scoped (p.Below i) (sc.setting z.targets) i := by
  have hinner : p.inner (p.form i) = callee :: args := by rw [hi]; rfl
  have ⟨hcalleeTree, hapart⟩ : p.Tree n z callee ∧ ∀ x ∈ args, p.Apart callee x := by
    have ⟨_, hapart, hparts⟩ := htree
    rw [hinner] at hapart
    rw [hi] at hparts
    exact ⟨(hparts (z, callee) mem_cons_self).mono (Nat.le_succ _), (pairwise_cons.1 hapart).1⟩
  have hqp := hq.indexed hp
  obtain ⟨hcalleeTree, hcalleeBelow⟩ :=
    hq.tree hcalleeTree fun j hj ⟨x, hx, hxj⟩ => hapart x hx j hj hxj
  have hform : q.form callee = .name name :=
    (hq.forms callee fun ⟨x, hx, hxj⟩ => hapart x hx callee (.refl _) hxj).trans hcallee
  obtain ⟨hbinds, _, hscoped⟩ := hcalleeTree.scoped_setForm (hqr.mono fun _ => False.elim) hqp
    (valid_of_form hform nofun) (by rw [hform]; rfl)
    (by simp [hqr.forms callee id, hform, Form.isType]) hfits hbound fun x hx => by
      rw [hleaf] at hx
      cases hx
  have hparts : p.Binds (fun j => ∃ x ∈ p.inner (p.form i), p.Below x j)
      (r.setForm callee form) := by
    rw [hinner]
    exact (hq.mono fun j ⟨x, hx, hj⟩ => ⟨x, mem_cons_of_mem _ hx, hj⟩).trans hbinds
      fun j hj => ⟨callee, mem_cons_self, hcalleeBelow j hj⟩
  obtain ⟨hdone, hi'⟩ := htree.scoped hparts (by rw [hi]; trivial) fun x hx => by
    rw [hi] at hx
    rcases mem_cons.1 hx with rfl | hx
    · exact hscoped.mono hcalleeBelow (.refl _)
    · obtain ⟨y, hy, rfl⟩ := mem_map.1 hx
      exact hbinds.scoped (hargs y hy) fun j hj hj' => hapart y hy j (hcalleeBelow j hj') hj
  refine (LeadsOr.edit hdone).post fun _ s _ hs => ?_
  subst hs
  exact hi'

/-- The name that a call starts with is bound after the arguments. -/
theorem callByName_binds (hk : p.Keyed) (hcallee : p.form callee = .name name) :
    Leads sc (p.Binds (p.Below i)) q (callByName i callee name args) fun _ r =>
      r.Scoped (p.Below i) (sc.setting z.targets) i := by
  have hinner (x : NodeId) (hx : x ∈ args) : x ∈ p.inner (p.form i) := by
    rw [hi]
    exact mem_cons_of_mem _ hx
  have horder := hp.untyped.ordered i (by rw [hi]; rfl)
  rw [hi] at horder
  have hless (x : NodeId) (hx : x ∈ args) := horder x (mem_cons_of_mem _ hx)
  have hqi : p.Binds (p.Below i) q := hq.mono fun j ⟨x, hx, hj⟩ => .head (hinner x hx) hj
  have hnodes {r : Program} (hr : p.Binds (p.Below i) r) (x : NodeId) (hx : x ∈ args) :
      r.nodes.Valid x := hr.linked.ext.nodes x (hp.shaped.valid_of_inner (hinner x hx))
  have hqp := hq.indexed hp
  have hqk := hq.keyed hk
  unfold callByName
  refine .program ?_
  extract_lets loc
  refine .program ?_
  extract_lets calleeLoc
  refine .bind (lookup_binds (S := fun _ => False) hqp) fun b q' _ ⟨he, hmeans⟩ => ?_
  subst he
  split
  · refine .bind (typeArgs_bind (S := fun _ => False) hqp args) fun insts q'' _ ⟨he, hinsts⟩ => ?_
    subst he
    have hwithin (a : InstId) (ha : a ∈ insts) : q''.Within (q''.formals sc.owner) a := by
      obtain ⟨x, hx, href⟩ := exists_of_forall₂ hinsts ha
      exact within_of_refers href (hargs x hx)
    refine hqi.call (fun _ => False.elim)
      (instantiate_binds (S := fun _ => False) hqp hmeans hwithin)
      fun inst r hr hqr ⟨hinst, hget⟩ => ?_
    refine setCall_binds hp htree hi hq hargs hr hqr ⟨⟨hnodes hr, hinst.valid⟩, rfl, nofun, hless⟩
      ⟨inst, rfl, by rw [hget], ?_, ?_⟩ rfl
    · rw [hget]
      exact hinsts.imp fun _ _ => hqr.refers id
    · rw [hqr.formals]
      exact hinst
  · exact .fail trivial
  · obtain ⟨c, path, howner, hlookup⟩ := hmeans
    exact setCall_binds hp htree hi hq hargs hqi (.refl hqp)
      ⟨⟨hnodes hqi, trivial⟩, rfl, nofun, hless⟩ ⟨c, path, howner, lookup_own_name hqk hlookup⟩ rfl
  · exact setCall_binds hp htree hi hq hargs hqi (.refl hqp)
      ⟨⟨hnodes hqi, hmeans⟩, rfl, nofun, hless⟩ trivial rfl
  · exact hqi.call (fun _ => False.elim)
      (readForm_binds (S := fun _ => False) hqp hqk hmeans z.targets callee)
      fun form r _ hqr ⟨hfits, hbound, hleaf⟩ =>
        setCallee_binds hp htree hi hq hargs hcallee hqr hfits hbound (hleaf _ _)

end Calls

theorem visitUpTo_classRef {target : Option Target} {inst : Option InstId} (n : Nat)
    (hp : p.Indexed) (htree : p.Tree n z i) (hi : p.form i = .classRef name target args inst) :
    Leads sc (p.Binds (p.Below i)) p (visitUpTo n i) fun _ q =>
      q.Scoped (p.Below i) (sc.setting z.targets) i ∧ ∃ inst, Refers q i inst := by
  cases n with
  | zero => cases htree
  | succ n =>
    unfold visitUpTo
    refine .program (.program ?_)
    rw [hi]
    exact .bind (typeRef_binds hp htree) fun inst q hq ⟨href, hscoped⟩ =>
      .pure hq ⟨hscoped, inst, href⟩

/-- `m` binds all names in the tree at `i`, and nothing else. -/
abbrev BindsAt (sc : Scope) (p : Program) (z : Zone) (i : NodeId) (m : Resolve Unit) : Prop :=
  Leads sc (p.Binds (p.Below i)) p m fun _ q => q.Scoped (p.Below i) (sc.setting z.targets) i

section Forms

variable {visit : NodeId → Resolve Unit} {loc : Location} {form : Form} (hp : p.Prepared n)
  (htree : p.Tree (n + 1) z i)

include hp htree in
theorem name_bindsAt (hi : p.form i = .name name) : BindsAt sc p z i (do
    let form ← readForm name loc (← lookup name loc)
    Pass.edit (·.setForm i form)) := by
  have ⟨hp, hk, _⟩ := hp
  refine .bind (lookup_binds (S := fun _ => False) hp) fun b q _ ⟨he, hmeans⟩ => ?_
  subst he
  refine Binds.call (.refl hp) (fun _ => False.elim)
    (readForm_binds (S := fun _ => False) hp hk hmeans z.targets i)
    fun form r hr hqr ⟨hfits, hbound, hleaf⟩ => ?_
  obtain ⟨hbinds, _, hscoped⟩ := htree.scoped_setForm hr hp (valid_of_form hi nofun)
    (by rw [hi]; rfl) (by simp [hqr.forms i id, hi, Form.isType]) hfits hbound fun x hx => by
      rw [hleaf] at hx
      cases hx
  refine (LeadsOr.edit hbinds).post fun _ s _ hs => ?_
  subst hs
  exact hscoped

include hp in
theorem this_bindsAt (hi : p.form i = .this) : BindsAt sc p z i (do
    if (← read).owner.isNone then failAt .thisOutsideClass loc) := by
  refine .read ?_
  split
  · exact fun _ _ => trivial
  · rename_i hsome
    refine .pure (.refl hp.indexed) (.node (.refl i) ?_ fun x hx => ?_)
    · rw [hi]
      cases ho : sc.owner with
      | none =>
        rw [ho] at hsome
        exact (hsome rfl).elim
      | some c => exact congrArg Option.isSome ho
    · rw [hi] at hx
      cases hx

variable (hvisit : ∀ sc x z p, p.Prepared n → p.Tree n z x → z.owner = sc.owner →
  BindsAt sc p z x (visit x)) (howner : z.owner = sc.owner)

include hvisit in
theorem visits_of_bindsAt (sc : Scope) (x : NodeId) (z : Zone) (p : Program) (e : Setting)
    (hp : p.Prepared n) (ht : p.Tree n z x) (ho : z.owner = sc.owner)
    (hle : (sc.setting z.targets).Le e) : Visits sc p (visit x) [(e, x)] :=
  .one (hvisit sc x z p hp ht ho) hle

include hp htree hvisit howner

/-- Where nothing is bound but what is in the children. -/
theorem children_bindsAt (hi : p.form i = form) (w : Zone) (hw : w.owner = z.owner)
    (hinner : p.parts z i form = form.children.map (w, ·))
    (hplaces : p.places (sc.setting z.targets) i form =
      form.children.map (sc.setting w.targets, ·))
    (hbound : ∀ r : Program, (∀ x, (p.form x).isType → (r.form x).isType) →
      r.Bound (sc.setting z.targets) form) :
    BindsAt sc p z i (form.children.forM visit) := by
  have ⟨_, hapart, hparts⟩ := htree
  have hsame : p.inner (p.form i) = form.children := by
    rw [hi, ← map_snd_parts p z i, hinner, map_map]
    exact map_id _
  rw [hi, hinner] at hparts
  rw [hsame] at hapart
  refine Visits.node htree ?_ fun r _ hr _ => hi ▸ hbound r hr.types
  rw [hi, hplaces]
  exact forM_visits hp (visits_of_bindsAt hvisit) (hw.trans howner) hapart
    (fun x hx => hparts (w, x) (mem_map_of_mem hx)) (.refl _)

theorem setName_bindsAt {value : NodeId} (hi : p.form i = .setName name value) :
    BindsAt sc p z i (do
      visit value
      let form ← writeForm name value loc (← lookup name loc)
      Pass.edit (·.setForm i form)) := by
  have ⟨_, _, hparts⟩ := htree
  have hinner : p.inner (p.form i) = [value] := by rw [hi]; rfl
  have hmem : value ∈ p.inner (p.form i) := hinner ▸ mem_singleton_self value
  have hkind : (p.form i).isTarget = false := by rw [hi]; rfl
  have hless := hp.indexed.untyped.ordered i hkind
  rw [hi] at hparts hless
  refine .bind (hvisit sc value z p hp (hparts (z, value) (mem_singleton_self _)) howner)
    fun _ q hq hvalue => ?_
  refine .bind (lookup_binds (S := fun _ => False) (hq.indexed hp.indexed))
    fun b q' _ ⟨he, hmeans⟩ => ?_
  subst he
  refine .bind (writeForm_binds (S := fun _ => False) (hq.indexed hp.indexed) hmeans
    (hq.linked.ext.nodes _ (hp.indexed.shaped.valid_of_inner hmem))
    (hless value (mem_singleton_self _)) z.targets) fun form q'' _ ⟨he, hfits, hbound, hplaces⟩ =>
    ?_
  subst he
  obtain ⟨hbinds, _, hscoped⟩ := htree.scoped_setForm (hq.mono fun j hj => .head hmem hj) hp.indexed
    (valid_of_form hi nofun) hkind (by simp [hq.forms i (htree.not_below hmem), hi, Form.isType])
    hfits hbound fun x hx => by
      rw [hplaces] at hx
      obtain rfl := mem_singleton.1 hx
      exact ⟨hmem, hvalue⟩
  refine (LeadsOr.edit hbinds).post fun _ s _ hs => ?_
  subst hs
  exact hscoped

/-- The callee is visited after the arguments, which have no text in common with it. -/
theorem call_bindsAt {callee : NodeId} (hi : p.form i = .call callee args) :
    BindsAt sc p z i (do
      args.forM visit
      match (← Pass.program).form callee with
      | .name name => callByName i callee name args
      | _ => visit callee) := by
  have ⟨_, hapart, hparts⟩ := htree
  have hinner : p.inner (p.form i) = callee :: args := by rw [hi]; rfl
  rw [hinner] at hapart
  rw [hi] at hparts
  obtain ⟨hcalleeApart, hargsApart⟩ := pairwise_cons.1 hapart
  have hcallee := hparts (z, callee) mem_cons_self
  have htrees (x : NodeId) (hx : x ∈ args) := hparts (z, x) (mem_cons_of_mem _ (mem_map_of_mem hx))
  refine .bind (forM_visits hp (visits_of_bindsAt hvisit) howner hargsApart htrees (.refl _))
    fun _ q hq hargs => .program ?_
  replace hq : p.Binds (fun j => ∃ x ∈ args, p.Below x j) q :=
    hq.mono fun j ⟨x, hx, hj⟩ => ⟨x.2, snd_mem_of_pair hx, hj⟩
  replace hargs (x : NodeId) (hx : x ∈ args) := hargs (sc.setting z.targets, x) (mem_map_of_mem hx)
  have hclear (j : NodeId) (hj : p.Below callee j) : ¬ ∃ x ∈ args, p.Below x j :=
    fun ⟨x, hx, hxj⟩ => hcalleeApart x hx j hj hxj
  have hform := hq.forms callee (hclear callee (.refl _))
  split
  · rename_i name hname
    exact callByName_binds hp.indexed htree hi hq hargs hp.keyed (hform.symm.trans hname)
  · obtain ⟨hsame, hbelow⟩ := hq.tree hcallee hclear
    refine (hvisit sc callee z q (hq.prepared hp) hsame howner).imp fun _ r hr hx => ?_
    have hr' : p.Binds (fun j => ∃ x ∈ p.inner (p.form i), p.Below x j) r := by
      rw [hinner]
      exact (hq.mono fun j ⟨x, hx, hj⟩ => ⟨x, mem_cons_of_mem _ hx, hj⟩).trans hr
        fun j hj => ⟨callee, mem_cons_self, hbelow j hj⟩
    refine htree.scoped hr' (by rw [hi]; trivial) fun y hy => ?_
    rw [hi] at hy
    rcases mem_cons.1 hy with rfl | hy
    · exact hx.mono hbelow (.refl _)
    · obtain ⟨w, hw, rfl⟩ := mem_map.1 hy
      exact hr.scoped (hargs w hw) fun j hj hj' => hclear j (hbelow j hj') ⟨w, hw, hj⟩

theorem letIn_bindsAt {body : List NodeId} (hi : p.form i = .letIn v body) :
    BindsAt sc p z i (do
      optional visit ((← Pass.program).vars.get v).init
      seeing [v] (body.forM visit)) := by
  have ⟨hraw, hapart, hparts⟩ := htree
  rw [hi] at hraw hapart hparts
  have hbody (x : NodeId) (hx : x ∈ body) := hparts (z, x) (mem_map_of_mem (mem_append_right _ hx))
  refine .program (Visits.node htree ?_ fun r S hr _ => ?_)
  · rw [hi]
    refine .append ?_ (fun y hy => ⟨n, z, hbody _ (snd_mem_of_pair hy)⟩)
      (optional_visits hp (visits_of_bindsAt hvisit) howner (fun x hx => ?_) (.refl _))
      fun q S hq hapart' hsame => .seeing ?_
    · rw [map_append, map_snd_pair, map_snd_pair]
      exact hapart
    · exact hparts (z, x) (mem_map_of_mem (mem_append_left _ hx))
    · rw [map_snd_pair] at hapart'
      exact forM_visits (hq.prepared hp) (visits_of_bindsAt hvisit) (by exact howner) hapart'
        (fun x hx => hsame (_, x) (mem_map_of_mem hx) n z (hbody x hx)) (.refl _)
  · rw [hi, Bound, hr.vars]
    exact hraw.2

theorem guard_bindsAt {cond yes : NodeId} {b : VarId} (hi : p.form i = .guard cond yes b) :
    BindsAt sc p z i (do
      visit cond
      seeing [b] (visit yes)) := by
  have ⟨_, hapart, hparts⟩ := htree
  rw [hi] at hapart hparts
  refine Visits.node htree ?_ fun r S hr _ => by rw [hi]; trivial
  rw [hi]
  have hcond := hparts (z, cond) mem_cons_self
  have hyes := hparts (z, yes) (mem_cons_of_mem _ (mem_singleton_self _))
  change Visits sc p _ ([(sc.setting z.targets, cond)] ++ [_])
  refine .append hapart (forall_mem_singleton.2 ⟨n, z, hyes⟩)
    (visits_of_bindsAt hvisit sc cond z p _ hp hcond howner (.refl _)) fun q S hq _ hsame => ?_
  exact .seeing (visits_of_bindsAt hvisit _ yes z q _ (hq.prepared hp)
    (hsame _ (mem_singleton_self _) n z hyes) howner (.refl _))

theorem lambda_bindsAt {l : LambdaId} (hi : p.form i = .lambda l) :
    BindsAt sc p z i (do
      let decl := (← Pass.program).lambdas.get l
      lambdaParams visit (visit decl.body) decl.params) := by
  have ⟨hraw, hapart, hparts⟩ := htree
  rw [hi] at hraw hapart hparts
  refine .program (Visits.node htree ?_ fun r S hr _ => ?_)
  · rw [hi]
    exact lambdaParams_visits (z := z.closed) hp (visits_of_bindsAt hvisit) howner _ hapart
      (fun x hx => hparts (z.closed, x) (mem_map_of_mem hx)) (.refl _)
  · simp only [hi, Bound, hr.lambdas, paramTypes, hr.vars]
    exact ⟨hraw.2.1.trans howner, fun d hd => hr.types d (hraw.2.2.2 d hd).isType⟩

/-- The target of a cast is a class reference when the operand has been bound, and so it becomes
one that is bound. -/
theorem cast_bindsAt {operand target : NodeId} {checked : Bool}
    (hclassRef : ∀ (p : Program) (name : NameId) args, p.Indexed → p.Tree n z target →
      p.form target = .classRef name none args none →
      Leads sc (p.Binds (p.Below target)) p (visit target) fun _ q =>
        q.Scoped (p.Below target) (sc.setting z.targets) target ∧ ∃ inst, Refers q target inst)
    (hi : p.form i = .cast operand target checked) :
    BindsAt sc p z i ([operand, target].forM visit) := by
  have ⟨hraw, hapart, hparts⟩ := htree
  have hinner : p.inner (p.form i) = [operand] ++ [target] := by rw [hi]; rfl
  rw [hinner] at hapart
  rw [hi] at hraw hparts
  obtain ⟨name, args, htarget⟩ := hraw
  have hoperand := hparts (z, operand) mem_cons_self
  have htype := hparts (z, target) (mem_cons_of_mem _ (mem_singleton_self _))
  refine .bind (visits_of_bindsAt hvisit sc operand z p _ hp hoperand howner (.refl _))
    fun _ q hq hoperand => ?_
  replace hq : p.Binds (fun j => ∃ x ∈ [operand], p.Below x j) q := by
    refine hq.mono ?_
    rintro j ⟨x, hx, hj⟩
    obtain rfl := mem_singleton.1 hx
    exact ⟨operand, mem_singleton_self _, hj⟩
  obtain ⟨hsame, _, hbelow⟩ := hq.rest_trees hapart (forall_mem_singleton.2 ⟨n, z, htype⟩)
  have hform : q.form target = .classRef name none args none := by
    refine (hq.forms target fun hj => ?_).trans htarget
    obtain ⟨x, hx, hj⟩ := hj
    exact (pairwise_append.1 hapart).2.2 x hx target (mem_singleton_self _) target hj (.refl target)
  refine .bind (hclassRef q name args (hq.indexed hp.indexed)
    (hsame target (mem_singleton_self _) n z htype) hform) fun _ r hr href => ?_
  obtain ⟨hscoped, inst, name', target', args', href⟩ := href
  obtain ⟨hboth, hkeep⟩ :=
    hq.both hapart hbelow (hr.mono fun j hj => ⟨target, mem_singleton_self _, hj⟩)
  rw [← hinner] at hboth
  have hdone := htree.scoped (e := sc.setting z.targets) hboth ?_ fun x hx => ?_
  · exact .pure hdone.1 hdone.2
  · rw [hi]
    exact ⟨name', target', args', inst, href⟩
  · rw [hi] at hx
    rcases mem_cons.1 hx with rfl | hx
    · exact hkeep _ (mem_singleton_self _) _ (hoperand _ (mem_singleton_self _))
    · obtain rfl := mem_singleton.1 hx
      exact hscoped.mono (hbelow _ (mem_singleton_self _)) (.refl _)

end Forms

/-- Trees have no more levels than there is fuel for, so the induction is on the fuel. -/
theorem visitUpTo_binds (n : Nat) (hp : p.Prepared n) (htree : p.Tree n z i)
    (howner : z.owner = sc.owner) : BindsAt sc p z i (visitUpTo n i) := by
  induction n generalizing sc i p z with
  | zero => cases htree
  | succ n ih =>
    have hvisit (sc : Scope) (x : NodeId) (z : Zone) (p : Program) (hp : p.Prepared n)
      (ht : p.Tree n z x) (ho : z.owner = sc.owner) : BindsAt sc p z x (visitUpTo n x) :=
      ih hp ht ho
    have hn : p.Prepared n := hp.mono (Nat.le_succ n)
    have ⟨hraw, _, _⟩ := htree
    unfold visitUpTo
    refine .program ?_
    extract_lets
    refine .program ?_
    cases hi : p.form i <;> rw [hi] at hraw
    case name => exact name_bindsAt hn htree hi
    case setName => exact setName_bindsAt hn htree hvisit howner hi
    case call => exact call_bindsAt hn htree hvisit howner hi
    case classRef =>
      exact .bind (typeRef_binds hn.indexed htree) fun inst q hq ⟨_, hscoped⟩ => .pure hq hscoped
    case letIn => exact letIn_bindsAt hn htree hvisit howner hi
    case guard => exact guard_bindsAt hn htree hvisit howner hi
    case lambda => exact lambda_bindsAt hn htree hvisit howner hi
    case this => exact this_bindsAt hn hi
    case cast =>
      exact cast_bindsAt hn htree hvisit howner
        (fun q _ _ hq ht hform => visitUpTo_classRef n hq ht hform) hi
    -- Names that are bound already are not in what the grammar makes.
    case void | getVar | setVar | callMethod | callFunction | functionRef | delegate =>
      exact hraw.elim
    case block | loop =>
      exact children_bindsAt hn htree hvisit howner hi (z.entering i) rfl rfl rfl fun _ _ => trivial
    case noneOf type | arrayOf type =>
      exact children_bindsAt hn htree hvisit howner hi z rfl rfl rfl fun _ htypes =>
        htypes type hraw
    case signature params result =>
      exact children_bindsAt hn htree hvisit howner hi z rfl rfl rfl
        fun _ htypes x hx => htypes x (hraw x hx)
    case getField base _ _ | setField base _ _ _ =>
      obtain ⟨hbase, rfl⟩ := hraw
      cases base with
      | none => cases hbase
      | some b => exact children_bindsAt hn htree hvisit howner hi z rfl rfl rfl fun _ _ => rfl
    case leave =>
      exact children_bindsAt hn htree hvisit howner hi z rfl rfl rfl fun _ _ => hraw.1
    case array => exact children_bindsAt hn htree hvisit howner hi z rfl rfl rfl fun _ _ => hraw
    all_goals exact children_bindsAt hn htree hvisit howner hi z rfl rfl rfl fun _ _ => trivial

theorem visit_visits (sc : Scope) (x : NodeId) (z : Zone) (p : Program) (e : Setting)
    (hp : p.Prepared n) (ht : p.Tree n z x) (ho : z.owner = sc.owner)
    (hle : (sc.setting z.targets).Le e) : Visits sc p (visit x) [(e, x)] := by
  refine .program (Visits.one (visitUpTo_binds p.nodes.size ?_ (ht.mono hp.fuel) ho) hle)
  exact { hp with fuel := Nat.le_refl _ }

theorem callable_visits (vs : List VarId) (hp : p.Prepared n)
    (hapart : (p.paramTypes vs ++ (result.toList ++ body.toList)).Pairwise p.Apart)
    (htrees : ∀ x ∈ p.paramTypes vs ++ (result.toList ++ body.toList), p.Tree n z x)
    (howner : z.owner = sc.owner) (hle : ((sc.setting z.targets).seeing vs).Le e) :
    Visits sc p (callable result body vs)
      ((p.paramTypes vs ++ (result.toList ++ body.toList)).map (e, ·)) := by
  induction vs generalizing sc p with
  | nil => exact tail_visits hp visit_visits howner hapart htrees hle
  | cons v vs ih =>
    rw [paramTypes_cons, append_assoc] at hapart htrees ⊢
    rw [map_append]
    have hrest (x : NodeId) (hx : x ∈ p.paramTypes vs ++ (result.toList ++ body.toList)) :=
      htrees x (mem_append_right _ hx)
    refine .program (Visits.append ?_ (fun y hy => ⟨n, z, hrest _ (snd_mem_of_pair hy)⟩)
      (optional_visits hp visit_visits howner (fun x hx => htrees x (mem_append_left _ hx))
        (le_of_seeing hle)) fun q S hq hapart' hsame => .read (.program ?_))
    · rw [map_append, map_snd_pair, map_snd_pair]
      exact hapart
    · split
      · exact fun _ _ => trivial
      · have hvs : q.paramTypes vs = p.paramTypes vs := by simp only [paramTypes, hq.vars]
        rw [map_snd_pair] at hapart'
        rw [← hvs] at hapart' hsame hrest ⊢
        refine Visits.seeing (ih (hq.prepared hp) hapart' (fun x hx => ?_) howner (le_next hle))
        exact hsame (e, x) (mem_map_of_mem hx) n z (hrest x hx)

end ClassLang.Program.Resolve

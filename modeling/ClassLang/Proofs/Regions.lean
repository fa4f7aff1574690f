import ClassLang.Proofs.Resolved

namespace ClassLang

open List

/-- A part of the text: the class it stands in, and whether it is the declared type of a parameter
or result. -/
structure Region where
  owner : Option ClassId
  declared : Bool := false

abbrev Atlas := Region → NodeId → Prop

namespace Program

variable {p p0 : Program} {G : Atlas} {S O : NodeId → Prop} {e : Setting} {i j d t : NodeId}
  {o : Option ClassId} {r : Root} {b : Bool} {c : ClassId}

inductive Escapes (p : Program) (t : NodeId) : NodeId → Prop
  | leave {i : NodeId} {result : Option NodeId} : p.form i = .leave t result → Escapes p t i
  | inner {i x : NodeId} : x ∈ p.inner (p.form i) → ((p.form i).isTarget → i ≠ t) → Escapes p t x →
      Escapes p t i

def Contained (p : Program) : Prop :=
  ∀ c, ∀ f ∈ (p.classes.get c).fields, ∀ d ∈ (p.vars.get f).init, ∀ t, ¬ p.Escapes t d

structure Written (p : Program) (G : Atlas) (o : Option ClassId) (vs : List VarId)
    (r : Option NodeId) : Prop where
  params : ∀ v ∈ vs, ∀ d ∈ (p.vars.get v).init, p.Scoped (G ⟨o, true⟩) ⟨⟨o, []⟩, vs⟩ d
  result : ∀ d ∈ r, p.Scoped (G ⟨o, true⟩) ⟨⟨o, []⟩, vs⟩ d

/-- All names in the regions are bound. What a field's first value jumps out to is in none of them.
-/
structure Charted (p : Program) (G : Atlas) : Prop where
  unique : ∀ g g' i, G g i → G g' i → g = g'
  valid : ∀ g i, G g i → p.nodes.Valid i
  fields : ∀ c, ∀ f ∈ (p.classes.get c).fields, ∀ d ∈ (p.vars.get f).init, ∃ ts,
    p.Scoped (G ⟨some c, false⟩) ⟨⟨some c, ts⟩, []⟩ d ∧ ∀ t ∈ ts, (∀ g, ¬ G g t) ∧ ¬ p.Contained
  methods : ∀ c, ∀ m ∈ (p.classes.get c).allMethods, p.Written G (some c) (p.methods.get m).params
    (p.methods.get m).result
  bodies : ∀ c, ∀ m ∈ (p.classes.get c).allMethods, ∀ b ∈ (p.methods.get m).body,
    p.Scoped (G ⟨some c, false⟩) ⟨⟨some c, []⟩, (p.methods.get m).params⟩ b
  functions : ∀ f, p.functions.Valid f → p.Written G none (p.functions.get f).params
    (p.functions.get f).result
  calls : p.Contained → ∀ f, p.functions.Valid f → ∀ b ∈ (p.functions.get f).body,
    p.Scoped (G ⟨none, false⟩) ⟨⟨none, []⟩, (p.functions.get f).params⟩ b

inductive Home (p : Program) (G : Atlas) (g : Region) (v : VarId) : Prop
  | init {d : NodeId} : (p.vars.get v).init = some d → G g d → Home p G g v
  | param {l : LambdaId} : (p.vars.get v).init = none → v ∈ (p.lambdas.get l).params →
      G g (p.lambdas.get l).body → Home p G g v
  | binding {i cond yes : NodeId} : p.form i = .guard cond yes v → G g cond → Home p G g v

theorem Home.unique (hp : p.Shaped) (hG : p.Charted G) {g g' : Region} {v : VarId}
    (h : p.Home G g v) (h' : p.Home G g' v) : g = g' := by
  have hbinding {i cond yes : NodeId} (hi : p.form i = .guard cond yes v) :
      (p.vars.get v).role = .binding := by
    have hrole := (hp.forms i).2
    rwa [hi] at hrole
  have hparam {l : LambdaId} (hv : v ∈ (p.lambdas.get l).params) := (hp.params l).2 v hv
  cases h with
  | init hd hg =>
    cases h' with
    | init hd' hg' =>
      cases hd.symm.trans hd'
      exact hG.unique _ _ _ hg hg'
    | param hn _ _ => cases hd.symm.trans hn
    | binding hi _ => cases hd.symm.trans (hp.bindings v (hbinding hi))
  | param hn hv hg =>
    cases h' with
    | init hd _ => cases hd.symm.trans hn
    | param _ hv' hg' =>
      cases hp.owners _ _ v hv hv'
      exact hG.unique _ _ _ hg hg'
    | binding hi _ => cases (hparam hv).symm.trans (hbinding hi)
  | binding hi hg =>
    cases h' with
    | init hd _ => cases hd.symm.trans (hp.bindings v (hbinding hi))
    | param _ hv _ => cases (hparam hv).symm.trans (hbinding hi)
    | binding hi' hg' =>
      cases hp.guards _ _ _ _ _ _ v hi hi'
      exact hG.unique _ _ _ hg hg'

section Texts

theorem Scoped.mem_of_below (h : p.Scoped S e i) (hj : p.Below i j) : S j := by
  induction h with
  | @node e i hi _ _ ih =>
    rcases hj.cases with rfl | ⟨x, hx, hj⟩
    · exact hi
    · obtain ⟨d, hd⟩ := exists_place hx e i
      exact ih _ hd hj

theorem Scoped.own (h : p.Scoped S e i) : p.Scoped (p.Below i) e i := by
  induction h with
  | node _ hbound _ ih =>
    refine .node (.refl _) hbound fun x hx => ?_
    exact (ih x hx).mono (fun j hj => .head (mem_places hx) hj) (.refl _)

/-- Only the jumps that lead out of a text need something around it. -/
theorem Scoped.retarget {ts : List NodeId} (h : p.Scoped S e i)
    (hts : ∀ t ∈ e.targets, p.Escapes t i → t ∈ ts) : p.Scoped S { e with targets := ts } i := by
  induction h generalizing ts with
  | @node e i hi hbound hparts ih =>
    have hthrough {x : NodeId} (hx : x ∈ p.inner (p.form i)) (hkind : (p.form i).isTarget = false)
      (t : NodeId) (htarget : t ∈ e.targets) (ht : p.Escapes t x) : t ∈ ts :=
      hts t htarget (.inner hx (by simp [hkind]) ht)
    have hinto {x : NodeId} (hx : x ∈ p.inner (p.form i)) (t : NodeId)
        (htarget : t ∈ i :: e.targets) (ht : p.Escapes t x) : t ∈ i :: ts := by
      by_cases hit : t = i
      · exact hit ▸ mem_cons_self
      · refine mem_cons_of_mem _
          (hts t ((mem_cons.1 htarget).resolve_left hit) (.inner hx (fun _ => ?_) ht))
        exact Ne.symm hit
    refine .node hi ?_ fun x hx => ?_
    · cases hform : p.form i with
      | leave target result => rw [hform] at hbound; exact hts target hbound (.leave hform)
      | getField base _ _ => rw [hform] at hbound; cases base <;> exact hbound
      | setField base _ _ _ => rw [hform] at hbound; cases base <;> exact hbound
      | delegate base _ => rw [hform] at hbound; cases base <;> exact hbound
      | callMethod base _ _ _ => rw [hform] at hbound; cases base <;> exact hbound
      | _ => rw [hform] at hbound; exact hbound
    · have hmem := mem_places hx
      cases hform : p.form i with
      | block body =>
        rw [hform] at hx ih
        obtain ⟨y, hy, rfl⟩ := mem_map.1 hx
        exact ih (e.entering i, y) (mem_map_of_mem hy) (hinto hmem)
      | loop body =>
        rw [hform] at hx ih
        obtain ⟨y, hy, rfl⟩ := mem_map.1 hx
        exact ih (e.entering i, y) (mem_map_of_mem hy) (hinto hmem)
      | letIn v body =>
        rw [hform] at hx ih hthrough hmem
        rcases mem_append.1 hx with hx | hx
        · obtain ⟨y, hy, rfl⟩ := mem_map.1 hx
          exact ih (e, y) (mem_append_left _ (mem_map_of_mem hy)) (hthrough hmem rfl)
        · obtain ⟨y, hy, rfl⟩ := mem_map.1 hx
          exact ih (e.seeing [v], y) (mem_append_right _ (mem_map_of_mem hy)) (hthrough hmem rfl)
      | guard cond yes b =>
        rw [hform] at hx ih hthrough hmem
        rcases mem_cons.1 hx with rfl | hx
        · exact ih (e, cond) mem_cons_self (hthrough hmem rfl)
        · obtain rfl := mem_singleton.1 hx
          exact ih (e.seeing [b], yes) (mem_cons_of_mem _ (mem_singleton_self _))
            (hthrough hmem rfl)
      | lambda l =>
        rw [hform] at hx hparts
        exact hparts x hx
      | _ =>
        rw [hform] at hx ih hthrough hmem
        obtain ⟨y, hy, rfl⟩ := mem_map.1 hx
        exact ih (e, y) (mem_map_of_mem hy) (hthrough hmem rfl)

/-- A part can jump where the node itself can, and to the node if that can be left. -/
theorem target_of_place {form : Form} {x : Setting × NodeId} (hx : x ∈ p.places e i form)
    (ht : t ∈ x.1.targets) : t ∈ e.targets ∨ form.isTarget ∧ t = i := by
  have hsame {e' : Setting} {body : List NodeId} (he' : e'.targets ⊆ e.targets)
      (hx : x ∈ body.map (e', ·)) : t ∈ e.targets := by
    obtain ⟨y, _, rfl⟩ := mem_map.1 hx
    exact he' ht
  have hinto {body : List NodeId} (hx : x ∈ body.map (e.entering i, ·)) : t = i ∨
      t ∈ e.targets := by
    obtain ⟨y, _, rfl⟩ := mem_map.1 hx
    exact mem_cons.1 ht
  unfold places at hx
  split at hx
  · exact (hinto hx).symm.imp_right fun h => ⟨rfl, h⟩
  · exact (hinto hx).symm.imp_right fun h => ⟨rfl, h⟩
  · exact .inl ((mem_append.1 hx).elim (hsame (Subset.refl _)) (hsame (Subset.refl _)))
  · rcases mem_cons.1 hx with rfl | hx
    · exact .inl ht
    · obtain rfl := mem_singleton.1 hx
      exact .inl ht
  · exact .inl (hsame (nil_subset _) hx)
  · exact .inl (hsame (Subset.refl _) hx)

/-- A jump leads out only to what is around. -/
theorem Scoped.target (h : p.Scoped S e i) (ht : p.Escapes t i) : t ∈ e.targets := by
  induction ht generalizing e with
  | leave hform =>
    obtain ⟨_, hbound, _⟩ := h
    rw [hform] at hbound
    exact hbound
  | @inner i x hx hne _ ih =>
    obtain ⟨_, _, hparts⟩ := h
    obtain ⟨d, hd⟩ := exists_place hx e i
    rcases target_of_place hd (ih (hparts _ hd)) with ht | ⟨hkind, rfl⟩
    · exact ht
    · exact absurd rfl (hne hkind)

theorem Below.valid (hp : p.Shaped) (hi : p.nodes.Valid i) (h : p.Below i j) : p.nodes.Valid j := by
  induction h with
  | refl => exact hi
  | @tail j k _ hk _ =>
    unfold inner at hk
    split at hk
    · rename_i v body hform
      rcases mem_append.1 hk with hk | hk
      · exact hp.inits v k (Option.mem_toList.1 hk)
      · exact (hp.forms j).1 k (by rw [hform]; exact hk)
    · rename_i l hform
      rcases mem_append.1 hk with hk | hk
      · obtain ⟨v, _, hv⟩ := mem_filterMap.1 hk
        exact hp.inits v k hv
      · rw [mem_singleton.1 hk]
        exact hp.body_valid hform
    · exact (hp.forms j).1 k hk

end Texts

def portion (p : Program) (r : Root) (declared : Bool) : List NodeId :=
  match r, declared with
  | .field v, false => (p.vars.get v).fieldInit
  | .method m, true => p.paramTypes (p.methods.get m).params ++ (p.methods.get m).result.toList
  | .method m, false => (p.methods.get m).body.toList
  | .function f, true =>
    p.paramTypes (p.functions.get f).params ++ (p.functions.get f).result.toList
  | .function f, false => (p.functions.get f).body.toList
  | _, _ => []

/-- The regions of a program; where a jump leads out of a field, the bodies of functions do not
count. -/
def atlas (p : Program) : Atlas := fun g i =>
  ∃ r ∈ p.bodyRoots, p.rootOwner r = g.owner ∧
    (∀ f, r = .function f → g.declared = false → p.Contained) ∧
    ∃ d ∈ p.portion r g.declared, p.Below d i

theorem mem_rootParts_of_portion (h : d ∈ p.portion r b) : d ∈ p.rootParts r := by
  unfold portion at h
  split at h
  · exact h
  · exact mem_append_left _ h
  · exact mem_append_right _ h
  · exact mem_append_left _ h
  · exact mem_append_right _ h
  · cases h

/-- A declared type is no value. -/
theorem Forest.portion_unique (h : p.Forest O) {b' : Bool} (hb : d ∈ p.portion r b)
    (hb' : d ∈ p.portion r b') : b = b' := by
  have hboth {xs ys : List NodeId} (hapart : (xs ++ ys).Pairwise p.Apart) (hx : d ∈ xs)
    (hy : d ∈ ys) : False := (pairwise_append.1 hapart).2.2 d hx d hy d (.refl d) (.refl d)
  have happarts := h.apart r
  cases r with
  | field v =>
    cases b
    · cases b'
      · rfl
      · cases hb'
    · cases hb
  | method m =>
    cases b <;> cases b'
    · rfl
    · exact (hboth happarts hb' hb).elim
    · exact (hboth happarts hb hb').elim
    · rfl
  | function f =>
    cases b <;> cases b'
    · rfl
    · exact (hboth happarts hb' hb).elim
    · exact (hboth happarts hb hb').elim
    · rfl
  | param q => cases b <;> cases hb
  | bases c => cases b <;> cases hb

structure Wired (p : Program) : Prop where
  shaped : p.Shaped
  untyped : p.Untyped
  owned : p.Owned
  instances : p.Instances
  bounds : ∀ a c, (p.params.get a).bound = some c → p.classes.Valid c ∧
    (p.classes.get c).params = []
  bases : ∀ c, ∀ b ∈ (p.classes.get c).bases, ∀ i, b.inst = some i →
    p.Within (p.classes.get c).params i
  laid : ∃ order, p.Laid order ∧ ∀ c, c ∈ order ↔ p.classes.Valid c
  found : ∀ m t, (p.methods.get m).overrides = some t → p.Overridden m t
  given : ∀ c, ∀ b ∈ (p.classes.get c).bases, ∀ m ∈ b.overloads, (p.methods.get m).overrides.isSome

theorem Resolved.wired (h : p.Resolved) : p.Wired := by
  obtain ⟨p0, O, hsown, hbind⟩ := h.bindings
  exact
    { shaped := hbind.stage.linked.shaped
      untyped := hbind.stage.linked.untyped
      owned := hbind.stage.akin.owned hsown.owned
      instances := hbind.stage.instances
      bounds := hbind.stage.bounds
      bases := hbind.stage.bases
      laid := hbind.laid
      found := hbind.found
      given := hbind.given }

theorem Akin.portion {q : Program} (h : p.Akin q) (r : Root) (b : Bool) :
    q.portion r b = p.portion r b := by
  cases r with
  | field v => cases b <;> simp only [Program.portion, h.vars]
  | method m =>
    cases b <;> simp only [Program.portion, paramTypes, h.methodParams, h.methodResult,
      h.methodBody, h.vars]
  | function f => cases b <;> simp only [Program.portion, paramTypes, h.vars, h.functions]
  | _ => cases b <;> rfl

theorem mem_bodyRoots_field {f : VarId} (hf : f ∈ (p.classes.get c).fields) :
    .field f ∈ p.bodyRoots :=
  mem_append_left _ (mem_flatMap.2
    ⟨c, Arena.mem_ids.2 (valid_of_mem_fields hf), mem_append_left _ (mem_map_of_mem hf)⟩)

theorem mem_bodyRoots_method {m : MethodId} (hm : m ∈ (p.classes.get c).allMethods) :
    .method m ∈ p.bodyRoots :=
  mem_append_left _ (mem_flatMap.2
    ⟨c, Arena.mem_ids.2 (valid_of_mem_allMethods hm), mem_append_right _ (mem_map_of_mem hm)⟩)

theorem mem_bodyRoots_function {f : FunctionId} (hf : p.functions.Valid f) :
    .function f ∈ p.bodyRoots :=
  mem_append_right _ (mem_map_of_mem (Arena.mem_ids.2 hf))

section Charting

variable (h : p0.Bindings p)
include h

theorem Bindings.below (hr : r ∈ p.bodyRoots) (hd : d ∈ p.portion r b) (hj : p.Below d j) :
    p0.Below d j := by
  have hakin := h.stage.akin
  obtain ⟨ts, _, hscoped⟩ :=
    h.settled r (hakin.bodyRoots ▸ hr) d (hakin.rootParts r ▸ mem_rootParts_of_portion hd)
  exact hscoped.mem_of_below hj

/-- The names in a part of a declaration are bound, with the jumps that lead out of it as targets.
-/
theorem Bindings.part (hr : r ∈ p.bodyRoots) (hd : d ∈ p.portion r b)
    (hcalls : ∀ f, r = .function f → b = false → p.Contained) :
    ∃ ts, p.Scoped (p.atlas ⟨p.rootOwner r, b⟩) ⟨⟨p.rootOwner r, ts⟩, p.rootVars r⟩ d ∧
      ∀ t ∈ ts, r.isField ∧ p0.Aloof t ∧ p.Escapes t d := by
  have hakin := h.stage.akin
  obtain ⟨ts, hts, hscoped⟩ :=
    h.settled r (hakin.bodyRoots ▸ hr) d (hakin.rootParts r ▸ mem_rootParts_of_portion hd)
  rw [← hakin.rootOwner, ← hakin.rootVars] at hscoped
  classical
  refine ⟨ts.filter fun t => p.Escapes t d, ?_, fun t ht => ?_⟩
  · refine (hscoped.own.retarget fun t ht he => mem_filter.2 ⟨ht, by simpa using he⟩).mono
      (fun j hj => ?_) (.refl _)
    exact ⟨r, hr, rfl, hcalls, d, hd, hj⟩
  · obtain ⟨hmem, hesc⟩ := mem_filter.1 ht
    exact ⟨(hts t hmem).1, (hts t hmem).2, by simpa using hesc⟩

variable (hs : p0.Sown O)
include hs

/-- Where a jump leads out of a field to, is in no region. -/
theorem Bindings.aloof (ht : p0.Aloof t) (hn : ¬ p.Contained) (g : Region) : ¬ p.atlas g t := by
  rintro ⟨r, hr, _, hcalls, d, hd, hbelow⟩
  have hakin := h.stage.akin
  have hmem := mem_rootParts_of_portion hd
  rw [hakin.rootParts] at hmem
  obtain ⟨rfl, f, rfl, hbody⟩ := ht r d hmem (h.below hr hd hbelow)
  rw [hakin.portion] at hd
  have hvalue : d ∈ p0.portion (.function f) false := by
    rw [portion, hbody]
    exact mem_singleton_self d
  exact hn (hcalls f rfl (hs.forest.portion_unique hd hvalue))

theorem Bindings.charted : p.Charted p.atlas := by
  have hakin := h.stage.akin
  have howned := hakin.owned hs.owned
  have hroot {c : ClassId} {m : MethodId} (hm : m ∈ (p.classes.get c).allMethods) :
    p.rootOwner (.method m) = some c := congrArg some (howned.owner hm)
  have hwritten {r : Root} (hr : r ∈ p.bodyRoots) (hfield : r.isField = false) {b : Bool}
      {d : NodeId} (hd : d ∈ p.portion r b)
      (hcalls : ∀ f, r = .function f → b = false → p.Contained) :
      p.Scoped (p.atlas ⟨p.rootOwner r, b⟩) ⟨⟨p.rootOwner r, []⟩, p.rootVars r⟩ d := by
    obtain ⟨ts, hscoped, hts⟩ := h.part hr hd hcalls
    cases ts with
    | nil => exact hscoped
    | cons t ts => cases hfield.symm.trans (hts t mem_cons_self).1
  refine
    { unique := fun g g' i hi hi' => ?_
      valid := fun g i hi => ?_
      fields := fun c f hf d hd => ?_
      methods := fun c m hm => ⟨fun v hv d hd => ?_, fun d hd => ?_⟩
      bodies := fun c m hm b hb => ?_
      functions := fun f hf => ⟨fun v hv d hd => ?_, fun d hd => ?_⟩
      calls := fun hc f hf b hb => ?_ }
  · obtain ⟨r, hr, howner, _, d, hd, hbelow⟩ := hi
    obtain ⟨r', hr', howner', _, d', hd', hbelow'⟩ := hi'
    have hmem := mem_rootParts_of_portion hd
    have hmem' := mem_rootParts_of_portion hd'
    have hdd : d = d' := by
      by_contra hne
      rw [hakin.rootParts] at hmem hmem'
      exact hs.forest.parts_apart hmem hmem' hne i (h.below hr hd hbelow) (h.below hr' hd' hbelow')
    subst hdd
    rw [hakin.rootParts] at hmem hmem'
    obtain rfl := hs.forest.root_unique hmem hmem'
    rw [hakin.portion] at hd hd'
    obtain ⟨o, b⟩ := g
    obtain ⟨o', b'⟩ := g'
    obtain rfl : b = b' := hs.forest.portion_unique hd hd'
    rw [show o = o' from howner.symm.trans howner']
  · obtain ⟨r, hr, _, _, d, hd, hbelow⟩ := hi
    have hmem := mem_rootParts_of_portion hd
    rw [hakin.rootParts] at hmem
    exact hbelow.valid h.stage.linked.shaped (h.stage.linked.ext.nodes d (hs.forest.valid r d hmem))
  · obtain ⟨_, hrole, _⟩ := howned.fields c f hf
    have howner : p.rootOwner (.field f) = some c := by rw [rootOwner, Var.owner?, hrole]
    obtain ⟨ts, hscoped, hts⟩ :=
      h.part (mem_bodyRoots_field hf) (b := false) (Var.mem_fieldInit hrole hd) (by simp)
    rw [howner] at hscoped
    refine ⟨ts, hscoped, fun t ht => ?_⟩
    have hn : ¬ p.Contained := fun hc => hc c f hf d hd t (hts t ht).2.2
    exact ⟨h.aloof hs (hts t ht).2.1 hn, hn⟩
  · rw [← hroot hm]
    exact hwritten (mem_bodyRoots_method hm) rfl (mem_append_left _ (mem_filterMap.2 ⟨v, hv, hd⟩))
      (by simp)
  · rw [← hroot hm]
    exact hwritten (mem_bodyRoots_method hm) rfl (mem_append_right _ (Option.mem_toList.2 hd))
      (by simp)
  · rw [← hroot hm]
    exact hwritten (mem_bodyRoots_method hm) rfl (Option.mem_toList.2 hb) (by simp)
  · exact hwritten (mem_bodyRoots_function hf) rfl (b := true)
      (mem_append_left _ (mem_filterMap.2 ⟨v, hv, hd⟩)) (by simp)
  · exact hwritten (mem_bodyRoots_function hf) rfl (b := true)
      (mem_append_right _ (Option.mem_toList.2 hd)) (by simp)
  · exact hwritten (mem_bodyRoots_function hf) rfl (b := false) (Option.mem_toList.2 hb)
      fun _ _ _ => hc

end Charting

theorem Resolved.charted (h : p.Resolved) : p.Charted p.atlas := by
  obtain ⟨_, _, hsown, hbind⟩ := h.bindings
  exact hbind.charted hsown

end Program

end ClassLang

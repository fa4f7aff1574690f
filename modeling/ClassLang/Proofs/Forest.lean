import ClassLang.Proofs.Nested

namespace ClassLang

open Arena List

def Var.owner? (v : Var) : Option ClassId :=
  match v.role with
  | .field c => some c
  | _ => none

namespace Program

variable {p q : Program} {lo : Nat} {O : NodeId → Prop} {c : ClassId} {m : MethodId} {a : ParamId}
  {d x j : NodeId}

/-- The class that a declaration stands in. The bound of a class parameter stands before the class.
-/
def rootOwner (p : Program) : Root → Option ClassId
  | .field v => (p.vars.get v).owner?
  | .method m => some (p.methods.get m).owner
  | .function _ => none
  | .param _ => none
  | .bases c => some c

/-- No declaration has `t` in its text, unless `t` is all of the body of a function. -/
def Aloof (p : Program) (t : NodeId) : Prop :=
  ∀ r, ∀ x ∈ p.rootParts r, p.Below x t → x = t ∧ ∃ f, r = .function f ∧
    (p.functions.get f).body = some t

def Clear (p : Program) (O : NodeId → Prop) (xs : List NodeId) : Prop :=
  ∀ t, O t → ∀ x ∈ xs, ¬ p.Below x t

/-- The text of each declaration is a tree, and no two declarations have a node in common. Only the
first value of a field can hold a jump that leads out of it, and only to one of the blocks `O` of
modules. -/
structure Forest (O : NodeId → Prop) (p : Program) : Prop where
  valid : ∀ r, ∀ x ∈ p.rootParts r, p.nodes.Valid x
  trees : ∀ r, ∀ x ∈ p.rootParts r, ∃ ts, (∀ t ∈ ts, r.isField ∧ O t) ∧
    p.Tree p.nodes.size ⟨p.rootOwner r, ts⟩ x
  aloof : ∀ t, O t → p.nodes.Valid t ∧ p.Aloof t
  apart : ∀ r, (p.rootParts r).Pairwise p.Apart
  disjoint : ∀ r s, r ≠ s → ∀ x ∈ p.rootParts r, ∀ y ∈ p.rootParts s, p.Apart x y

structure Owned (p : Program) : Prop where
  classes : ∀ m, ∀ c ∈ (p.modules.get m).classes, p.classes.Valid c
  methods : ∀ c, ∀ m ∈ (p.classes.get c).methods,
    p.methods.Valid m ∧ (p.methods.get m).owner = c ∧ (p.methods.get m).base = none
  overloads : ∀ c k b, (p.classes.get c).bases[k]? = some b → ∀ m ∈ b.overloads,
    p.methods.Valid m ∧ (p.methods.get m).owner = c ∧ (p.methods.get m).base = some k
  distinctMethods : ∀ c, (p.classes.get c).allMethods.Nodup
  fields : ∀ c, ∀ f ∈ (p.classes.get c).fields,
    p.vars.Valid f ∧ (p.vars.get f).role = .field c ∧ (p.vars.get f).init.isSome
  distinctFields : ∀ c, (p.classes.get c).fields.Nodup
  params : ∀ c k q, (p.classes.get c).params[k]? = some q →
    p.params.Valid q ∧ (p.params.get q).owner = c ∧ (p.params.get q).index = k
  indices : ∀ q, p.params.Valid q →
    (p.classes.get (p.params.get q).owner).params[(p.params.get q).index]? = some q

structure Unlinked (p : Program) : Prop where
  insts : p.insts = {}
  globals : p.globals = []
  flattened : ∀ c, (p.classes.get c).flattened = false
  bases : ∀ c, ∀ b ∈ (p.classes.get c).bases, b.inst = none
  dispatch : ∀ c, (p.classes.get c).dispatch = []
  bounds : ∀ q, (p.params.get q).bound = none
  overrides : ∀ m, (p.methods.get m).overrides = none

structure Sown (O : NodeId → Prop) (p : Program) : Prop where
  forest : p.Forest O
  owned : p.Owned
  unlinked : p.Unlinked
  nested : p.Nested

theorem valid_of_mem_fields {v : VarId} (h : v ∈ (p.classes.get c).fields) : p.classes.Valid c :=
  valid_of_get_ne fun hd => by
    rw [hd] at h
    cases h

theorem valid_of_mem_allMethods (h : m ∈ (p.classes.get c).allMethods) : p.classes.Valid c :=
  valid_of_get_ne fun hd => by
    rw [hd] at h
    cases h

theorem valid_of_mem_params (h : a ∈ (p.classes.get c).params) : p.classes.Valid c :=
  valid_of_get_ne fun hd => by
    rw [hd] at h
    cases h

theorem valid_of_mem_bases (h : d ∈ p.rootParts (.bases c)) : p.classes.Valid c :=
  valid_of_get_ne fun hd => by
    rw [rootParts, hd] at h
    cases h

theorem Owned.mem_params (h : p.Owned) (hd : d ∈ p.rootParts (.param a))
    (hc : (p.params.get a).owner = c) : a ∈ (p.classes.get c).params := by
  have hv : p.params.Valid a := valid_of_get_ne fun ha => by
    rw [rootParts, ha] at hd
    cases hd
  exact hc ▸ mem_of_getElem? (h.indices a hv)

theorem Owned.params_iff (h : p.Owned) (c : ClassId) (k : Nat) (x : ParamId) :
    (p.classes.get c).params[k]? = some x ↔ p.params.Valid x ∧ (p.params.get x).owner = c ∧
      (p.params.get x).index = k :=
  ⟨h.params c k x, fun ⟨hx, hc, hk⟩ => hc ▸ hk ▸ h.indices x hx⟩

theorem Owned.method (h : p.Owned) (hm : m ∈ (p.classes.get c).allMethods) :
    p.methods.Valid m ∧ (p.methods.get m).owner = c := by
  rcases mem_append.1 hm with hm | hm
  · exact (h.methods c m hm).imp_right And.left
  · obtain ⟨b, hb, hm⟩ := mem_flatMap.1 hm
    obtain ⟨k, hk⟩ := mem_iff_getElem?.1 hb
    exact (h.overloads c k b hk m hm).imp_right And.left

theorem Owned.owner (h : p.Owned) (hm : m ∈ (p.classes.get c).allMethods) :
    (p.methods.get m).owner = c := (h.method hm).2

theorem Owned.valid_method (h : p.Owned) (hm : m ∈ (p.classes.get c).allMethods) :
    p.methods.Valid m := (h.method hm).1

theorem Clear.nil (p : Program) (O : NodeId → Prop) : p.Clear O [] := fun _ _ => forall_mem_nil _

theorem Forest.open {i : NodeId} (h : p.Forest O) (hi : p.nodes.Valid i) (hfree : ¬ p.Taken i) :
    p.Forest fun t => O t ∨ t = i :=
  { h with
    trees := fun r x hx => by
      obtain ⟨ts, hts, htree⟩ := h.trees r x hx
      exact ⟨ts, fun t ht => ⟨(hts t ht).1, .inl (hts t ht).2⟩, htree⟩
    aloof := by
      rintro t (ht | rfl)
      · exact h.aloof t ht
      · exact ⟨hi, fun r x hx hb => absurd ⟨r, x, hx, hb⟩ hfree⟩ }

/-- Text that was read later than some blocks does not contain them. -/
theorem Sprouts.clear {z : Zone} {xs : List NodeId} (h : p.Sprouts lo (xs.map (z, ·)))
    (hO : ∀ t, O t → t.index < lo) : p.Clear O xs :=
  fun t ht _ hx hb => Nat.not_lt.2 ((h.made _ (mem_map_of_mem hx)).since t hb).1 (hO t ht)

theorem Taken.of_root {r : Root} (hx : x ∈ p.rootParts r) (hj : p.Below x j) : p.Taken j :=
  ⟨r, x, hx, hj⟩

section Growth

variable (hvars : p.vars.Grows q.vars) (hlambdas : p.lambdas.Grows q.lambdas)
  (htargets : ∀ j, (p.form j).isTarget → (q.form j).isTarget) (hnodes : p.nodes.size ≤ q.nodes.size)
include hvars hlambdas htargets

theorem Forest.root (h : p.Forest O) (hforms : ∀ j, p.Taken j → q.form j = p.form j) {r : Root}
    (hx : x ∈ p.rootParts r) :
    (∃ ts, (∀ t ∈ ts, r.isField ∧ O t) ∧ q.Tree p.nodes.size ⟨p.rootOwner r, ts⟩ x) ∧
      ∀ j, q.Below x j → p.Below x j := by
  obtain ⟨ts, hts, htree⟩ := h.trees r x hx
  obtain ⟨htree', hbelow⟩ := htree.congr hvars hlambdas htargets fun j hj =>
    hforms j (.of_root hx hj)
  exact ⟨⟨ts, hts, htree'⟩, hbelow⟩

include hnodes

theorem Forest.congr (h : p.Forest O) (hforms : ∀ j, p.Taken j → q.form j = p.form j)
    (hroots : ∀ r, q.rootParts r = p.rootParts r)
    (howners : ∀ r, p.rootParts r ≠ [] → q.rootOwner r = p.rootOwner r)
    (hbodies : ∀ f, (q.functions.get f).body = (p.functions.get f).body) : q.Forest O := by
  have hroot {r : Root} {x : NodeId} (hx : x ∈ p.rootParts r) :=
    h.root hvars hlambdas htargets hforms hx
  refine ⟨fun r x hx => ?_, fun r x hx => ?_, fun t ht => ⟨?_, fun r x hx hb => ?_⟩, fun r => ?_,
    fun r s hrs x hx y hy => ?_⟩
  · exact Nat.lt_of_lt_of_le (h.valid r x (hroots r ▸ hx)) hnodes
  · rw [hroots] at hx
    obtain ⟨⟨ts, hts, htree⟩, -⟩ := hroot hx
    rw [howners r (ne_nil_of_mem hx)]
    exact ⟨ts, hts, htree.mono hnodes⟩
  · exact Nat.lt_of_lt_of_le (h.aloof t ht).1 hnodes
  · rw [hroots] at hx
    obtain ⟨hxt, f, hr, hbody⟩ := (h.aloof t ht).2 r x hx ((hroot hx).2 t hb)
    exact ⟨hxt, f, hr, (hbodies f).trans hbody⟩
  · rw [hroots]
    exact (h.apart r).imp_of_mem fun hx hy hxy j hjx hjy =>
      hxy j ((hroot hx).2 j hjx) ((hroot hy).2 j hjy)
  · rw [hroots] at hx hy
    exact fun j hjx hjy => h.disjoint r s hrs x hx y hy j ((hroot hx).2 j hjx) ((hroot hy).2 j hjy)

end Growth

section Planting

variable {r : Root} {xs : List NodeId} {ts : List NodeId} (hvars : p.vars.Grows q.vars)
  (hlambdas : p.lambdas.Grows q.lambdas) (hnodes : q.nodes = p.nodes)
  (hr : q.rootParts r = p.rootParts r ++ xs) (hother : ∀ s, s ≠ r → q.rootParts s = p.rootParts s)
  (hxs : p.Sprouts lo (xs.map (⟨q.rootOwner r, ts⟩, ·)))
include hvars hlambdas hnodes hr hother hxs

theorem Forest.plant (h : p.Forest O) (hts : ∀ t ∈ ts, r.isField ∧ O t)
    (howners : ∀ s, p.rootParts s ≠ [] → q.rootOwner s = p.rootOwner s)
    (hbodies : ∀ f b, (p.functions.get f).body = some b → (q.functions.get f).body = some b)
    (hopen : ∀ t, O t → ∀ x ∈ xs, p.Below x t → x = t ∧ ∃ f, r = .function f ∧
      (q.functions.get f).body = some t) : q.Forest O := by
  have hforms (j : NodeId) : q.form j = p.form j := by simp only [form, hnodes]
  have htargets (j : NodeId) (hj : (p.form j).isTarget) : (q.form j).isTarget :=
    (hforms j).symm ▸ hj
  have hroot {s : Root} {x : NodeId} (hx : x ∈ p.rootParts s) :=
    h.root hvars hlambdas htargets (fun j _ => hforms j) hx
  have hnew {x : NodeId} (hx : x ∈ xs) := hxs.made _ (mem_map_of_mem hx)
  have hnewBelow {x : NodeId} (hx : x ∈ xs) :=
    (hnew hx).tree.congr hvars hlambdas htargets fun j _ => hforms j
  -- A new tree is apart from all that a declaration had before.
  have hfree {s : Root} {x y : NodeId} (hx : x ∈ p.rootParts s) (hy : y ∈ xs) : q.Apart x y :=
    fun j hjx hjy => (hnew hy).free j ((hnewBelow hy).2 j hjy) (.of_root hx ((hroot hx).2 j hjx))
  have hold {s s' : Root} (hs : s ≠ s') {x y : NodeId} (hx : x ∈ p.rootParts s)
    (hy : y ∈ p.rootParts s') : q.Apart x y :=
    fun j hjx hjy => h.disjoint s s' hs x hx y hy j ((hroot hx).2 j hjx) ((hroot hy).2 j hjy)
  have hmem {s : Root} {x : NodeId} (hx : x ∈ q.rootParts s) : x ∈ p.rootParts s ∨
      s = r ∧ x ∈ xs := by
    by_cases hs : s = r
    · subst hs
      rw [hr] at hx
      exact (mem_append.1 hx).imp_right fun hx => ⟨rfl, hx⟩
    · rw [hother s hs] at hx
      exact .inl hx
  have hapart (s : Root) : (p.rootParts s).Pairwise q.Apart :=
    (h.apart s).imp_of_mem fun hx hy hxy j hjx hjy =>
    hxy j ((hroot hx).2 j hjx) ((hroot hy).2 j hjy)
  refine ⟨fun s x hx => ?_, fun s x hx => ?_, fun t ht => ⟨?_, fun s x hx hb => ?_⟩, fun s => ?_,
    fun s s' hs x hx y hy => ?_⟩
  · rw [hnodes]
    rcases hmem hx with hx | ⟨rfl, hx⟩
    · exact h.valid s x hx
    · exact (hnew hx).valid
  · rw [hnodes]
    rcases hmem hx with hx | ⟨rfl, hx⟩
    · rw [howners s (ne_nil_of_mem hx)]
      exact (hroot hx).1
    · exact ⟨ts, hts, (hnewBelow hx).1.mono (Nat.sub_le _ _)⟩
  · rw [hnodes]
    exact (h.aloof t ht).1
  · rcases hmem hx with hx | ⟨rfl, hx⟩
    · obtain ⟨hxt, f, hs, hbody⟩ := (h.aloof t ht).2 s x hx ((hroot hx).2 t hb)
      exact ⟨hxt, f, hs, hbodies f t hbody⟩
    · exact hopen t ht x hx ((hnewBelow hx).2 t hb)
  · by_cases hs : s = r
    · subst hs
      rw [hr, pairwise_append]
      refine ⟨hapart s, ?_, fun x hx y hy => hfree hx hy⟩
      have hnewApart := hxs.apart
      simp only [map_map, Function.comp_def, map_id'] at hnewApart
      exact hnewApart.imp_of_mem fun hx hy hxy j hjx hjy =>
        hxy j ((hnewBelow hx).2 j hjx) ((hnewBelow hy).2 j hjy)
    · rw [hother s hs]
      exact hapart s
  · rcases hmem hx with hx | ⟨rfl, hx⟩ <;> rcases hmem hy with hy | ⟨rfl, hy⟩
    · exact hold hs hx hy
    · exact hfree hx hy
    · exact (hfree hy hx).symm
    · exact absurd rfl hs

theorem taken_of_plant (h : p.Forest O) (hj : q.Taken j) : p.Taken j ∨ lo ≤ j.index := by
  have hforms (j : NodeId) : q.form j = p.form j := by simp only [form, hnodes]
  have htargets (j : NodeId) (hj : (p.form j).isTarget) : (q.form j).isTarget :=
    (hforms j).symm ▸ hj
  obtain ⟨s, x, hx, hj⟩ := hj
  have hmem : x ∈ p.rootParts s ∨ x ∈ xs := by
    by_cases hs : s = r
    · subst hs
      rw [hr] at hx
      exact mem_append.1 hx
    · rw [hother s hs] at hx
      exact .inl hx
  rcases hmem with hx | hx
  · exact .inl ⟨s, x, hx, (h.root hvars hlambdas htargets (fun j _ => hforms j) hx).2 j hj⟩
  · have hmade := hxs.made _ (mem_map_of_mem hx)
    exact .inr (hmade.since j
      ((hmade.tree.congr hvars hlambdas htargets fun j _ => hforms j).2 j hj)).1

end Planting

end Program

end ClassLang

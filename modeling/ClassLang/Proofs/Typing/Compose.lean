import ClassLang.Proofs.Typing.Upcasts

namespace ClassLang.Program

open List TypeTable

variable {α β : Type} {p q : Program} {s : Substitution} {b : List ParamId} {C : ColdId → Prop}
  {c d e : ClassId} {i j k x y z : InstId} {t u w : TypeId} {way : List InstId} {xs : List α}

theorem mem_zip_iff {ys : List β} {v : α × β} :
    v ∈ xs.zip ys ↔ ∃ n : Nat, xs[n]? = some v.1 ∧ ys[n]? = some v.2 := by
  simp only [mem_iff_getElem?, getElem?_zip_eq_some]

theorem exists_getElem? {ys : List β} {a : α} {n : Nat} (hlen : xs.length = ys.length)
    (h : xs[n]? = some a) : ∃ b, ys[n]? = some b := by
  obtain ⟨hn, _⟩ := List.getElem?_eq_some_iff.1 h
  exact ⟨_, getElem?_eq_getElem (hlen ▸ hn)⟩

theorem eq_of_zip_eq {ys : List α} (hlen : xs.length = ys.length) (h : ∀ v ∈ xs.zip ys, v.2 = v.1) :
    ys = xs := by
  have hall : Forall₂ (· = ·) xs ys := forall₂_iff_zip.2 ⟨hlen, fun hv => (h _ hv).symm⟩
  rw [forall₂_eq_eq_eq] at hall
  exact hall.symm

section Composition

variable {args args' : List InstId} (hb : ∀ x ∈ b, (p.params.get x).owner = d)
  (hargs : ∀ v ∈ args.zip args', p.Replaced s v.1 v.2)
include hb hargs

/-- What has other arguments in place of parameters has the arguments replaced. -/
theorem Replaced.between (h : p.Replaced ⟨d, args⟩ i j) (h' : p.Replaced ⟨d, args'⟩ i k)
    (hi : p.Within b i) : p.Replaced s j k := by
  induction h generalizing k with
  | own _ hget howner harg =>
    cases h' with
    | own _ hget' _ harg' =>
      cases hget.symm.trans hget'
      exact hargs (_, _) (mem_zip_iff.2 ⟨_, harg, harg'⟩)
    | other _ hget' howner' =>
      cases hget.symm.trans hget'
      exact absurd howner howner'
    | cls _ hget' _ _ _ _ => cases hget.symm.trans hget'
  | other _ hget howner =>
    cases hi with
    | node _ hparam _ => exact absurd (hb _ (hparam _ (by rw [hget]))) howner
  | cls _ hget hj hgetj hlen _ ih =>
    cases h' with
    | own _ hget' _ _ | other _ hget' _ => cases hget.symm.trans hget'
    | cls _ hget' hk hgetk hlen' hargs' =>
      cases hget.symm.trans hget'
      refine .cls hj hgetj hk hgetk (hlen.symm.trans hlen') fun v hv => ?_
      obtain ⟨n, hy, hz⟩ := mem_zip_iff.1 hv
      obtain ⟨x, hx⟩ := exists_getElem? hlen.symm hy
      refine ih (x, v.1) (mem_zip_iff.2 ⟨n, hx, hy⟩)
        (hargs' (x, v.2) (mem_zip_iff.2 ⟨n, hx, hz⟩)) ?_
      cases hi with
      | node _ _ hwithin => exact hwithin x (by rw [hget]; exact mem_of_getElem? hx)

variable (hlen : args.length = args'.length)
include hlen

/-- To replace parameters, and then those of their arguments, is to replace them by other arguments.
-/
theorem Replaced.comp (h : p.Replaced ⟨d, args⟩ i j) (h' : p.Replaced s j k) (hi : p.Within b i) :
    p.Replaced ⟨d, args'⟩ i k := by
  induction h generalizing k with
  | @own i a x args hv hget howner harg =>
    obtain ⟨a', harg'⟩ := exists_getElem? hlen harg
    obtain rfl : a' = k := h'.unique (hargs (a, a') (mem_zip_iff.2 ⟨_, harg, harg'⟩))
    exact .own hv hget howner harg'
  | other _ hget howner =>
    cases hi with
    | node _ hparam _ => exact absurd (hb _ (hparam _ (by rw [hget]))) howner
  | @cls i j c args args' hv hget _ hgetj hlen' _ ih =>
    cases h' with
    | own _ hget' _ _ | other _ hget' _ => cases hgetj.symm.trans hget'
    | cls _ hget' hk hgetk hlen'' hargs' =>
      cases hgetj.symm.trans hget'
      refine .cls hv hget hk hgetk (hlen'.trans hlen'') fun v hmem => ?_
      obtain ⟨n, hx, hz⟩ := mem_zip_iff.1 hmem
      obtain ⟨y, hy⟩ := exists_getElem? hlen' hx
      refine ih (v.1, y) (mem_zip_iff.2 ⟨n, hx, hy⟩)
        (hargs' (y, v.2) (mem_zip_iff.2 ⟨n, hy, hz⟩)) ?_
      cases hi with
      | node _ _ hwithin => exact hwithin _ (by rw [hget]; exact (of_mem_zip hmem).1)

theorem Retyped.comp (h : p.Retyped ⟨d, args⟩ t u) (h' : p.Retyped s u w)
    (ht : Over p.types (p.Within b) C t) : p.Retyped ⟨d, args'⟩ t w := by
  induction h generalizing w with
  | @node t u hv _ hshape _ hinst ih =>
    cases h' with
    | node _ hw hshape' hparts' hinst' =>
      refine .node hv hw (hshape.trans hshape') (fun v hmem => ?_) fun i k hi hk => ?_
      · obtain ⟨n, hx, hz⟩ := mem_zip_iff.1 hmem
        obtain ⟨y, hy⟩ := exists_getElem? (Ty.length_parts hshape) hx
        exact ih (v.1, y) (mem_zip_iff.2 ⟨n, hx, hy⟩) (hparts' (y, v.2) (mem_zip_iff.2 ⟨n, hy, hz⟩))
          (ht.part (of_mem_zip hmem).1)
      · have hsome := Ty.isSome_inst? hshape
        rw [hi] at hsome
        obtain ⟨j, hj⟩ := Option.isSome_iff_exists.1 hsome.symm
        exact (hinst i j hi hj).comp hb hargs hlen (hinst' j k hj hk) (ht.inst hi)

end Composition

theorem Stripped.comp (hp : p.Canonical) (h : p.Stripped i t u) (h' : p.Stripped x u w)
    (hz : p.StrippedInst x i z) (hi : (p.insts.get i).target = .cls d)
    (ht : Over p.types (p.Within (p.classes.get d).params) C t) : p.Stripped z t w := by
  unfold StrippedInst at hz
  unfold Stripped at h'
  cases hx : p.substitution? x with
  | none =>
    rw [hx] at hz h'
    subst hz h'
    exact h
  | some s' =>
    rw [hx] at hz h'
    obtain ⟨args, hget⟩ : ∃ args, p.insts.get i = ⟨.cls d, args⟩ := ⟨_, by rw [← hi]⟩
    cases hz with
    | own _ hget' _ _ | other _ hget' _ => cases hget.symm.trans hget'
    | cls _ hget' _ hgetz hlen hargs =>
      cases hget.symm.trans hget'
      unfold Stripped substitution? at h ⊢
      rw [hget] at h
      rw [hgetz]
      exact Retyped.comp (fun _ hx => (hp.param hx).2) hargs hlen h h' ht

theorem StrippedInst.between (hp : p.Canonical) (h : p.StrippedInst j k y)
    (hz : p.StrippedInst x j z) (hw : p.StrippedInst z k i) (hj : (p.insts.get j).target = .cls d)
    (hk : p.Within (p.classes.get d).params k) : p.StrippedInst x y i := by
  unfold StrippedInst at hz
  cases hx : p.substitution? x with
  | none =>
    rw [hx] at hz
    subst hz
    rw [StrippedInst, hx]
    exact h.unique hw
  | some s' =>
    rw [hx] at hz
    rw [StrippedInst, hx]
    obtain ⟨args, hget⟩ : ∃ args, p.insts.get j = ⟨.cls d, args⟩ := ⟨_, by rw [← hj]⟩
    cases hz with
    | own _ hget' _ _ | other _ hget' _ => cases hget.symm.trans hget'
    | cls _ hget' _ hgetz hlen hargs =>
      cases hget.symm.trans hget'
      unfold StrippedInst substitution? at h hw
      rw [hget] at h
      rw [hgetz] at hw
      exact Replaced.between (fun _ hx => (hp.param hx).2) hargs h hw hk

section

variable (hp : p.Tidy) (hx : p.insts.Valid x) (hway : ∀ i ∈ way, p.insts.Valid i)
include hp hx hway

theorem arrive_mends :
    Mends p (way.foldlM (fun x i => stripInst i x) x) fun y q => q.insts.Valid y ∧
      q.Arrives x way y := by
  induction way generalizing p x with
  | nil => exact .pure hp ⟨hx, rfl⟩
  | cons i way ih =>
    rw [forall_mem_cons] at hway
    rw [foldlM_cons]
    refine (stripInst_mends hp hway.1 hx).bind fun z q hq htidy ⟨hz, hstripped⟩ => ?_
    refine (ih htidy hz fun k hk => hq.insts.valid (hway.2 k hk)).imp fun y r hr _ ⟨hy, hrest⟩ =>
      ⟨hy, z, ?_, hrest⟩
    exact hstripped.grows hr.insts hr.params (hq.insts.valid hx)

/-- A way up ends with an instance, if the tables may grow. -/
theorem exists_arrives : ∃ y q, p.Adds q ∧ q.Tidy ∧ q.insts.Valid y ∧ q.Arrives x way y := by
  have h := arrive_mends hp hx hway
  unfold Mends at h
  split at h
  · exact ⟨_, _, h⟩
  · exact h.elim

end

/-- A type is seen over a way as it is seen from the instance at its end; the induction is from the
class at the bottom. -/
theorem Chain.stripped (hp : p.Canonical) (hway : p.Chain c way e)
    (h : p.StrippedAlong (way.reverse ++ [x]) t u) (harrives : p.Arrives x way y)
    (ht : Over p.types (p.Within (p.classes.get e).params) C t) : p.Stripped y t u := by
  induction hway generalizing x u with
  | nil =>
    obtain ⟨w, hw, rfl⟩ := h
    cases harrives
    exact hw
  | @cons c d e i way hi _ hway ih =>
    rw [reverse_cons, append_assoc] at h
    obtain ⟨w, hw, v, hv, v', hv', rfl⟩ := StrippedAlong.of_append h
    obtain ⟨z, hz, hrest⟩ := harrives
    exact ih (hw.append ⟨_, hv.comp hp hv' hz hi (hway.over hp hw ht), rfl⟩) hrest ht

/-- From an instance seen from another, a way leads to what is at its end, seen from there. -/
theorem Arrives.stripped (hp : p.Canonical) (hway : p.Chain c way e) (h : p.Arrives j way y)
    (hz : p.StrippedInst x j z) (hk : p.Arrives z way k) (hj : (p.insts.get j).target = .cls c) :
    p.StrippedInst x y k := by
  induction hway generalizing j z with
  | nil =>
    cases h
    cases hk
    exact hz
  | cons hi hwithin _ ih =>
    obtain ⟨j', hj', hrest⟩ := h
    obtain ⟨z', hz', hrest'⟩ := hk
    exact ih hrest (hj'.between hp hz hz' hj hwithin) hrest' (hj'.target hi).1

theorem Chain.arrives (hway : p.Chain c way e) (hsat : ∀ i ∈ way, p.Saturated i)
    (h : p.Arrives x way y) (hx : (p.insts.get x).target = .cls c) (hs : p.Saturated x) :
    (p.insts.get y).target = .cls e ∧ p.Saturated y := by
  induction hway generalizing x with
  | nil =>
    cases h
    exact ⟨hx, hs⟩
  | cons hi _ _ ih =>
    obtain ⟨z, hz, hrest⟩ := h
    rw [forall_mem_cons] at hsat
    obtain ⟨hclass, hsatz⟩ := hz.target hi
    exact ih hsat.2 hrest hclass (hsatz hsat.1)

theorem Chain.adds (h : p.Chain c way e) (hq : p.Adds q) : q.Chain c way e := by
  induction h with
  | nil => exact .nil
  | cons hi hwithin _ ih =>
    refine .cons (by rw [hq.insts.get_eq hwithin.valid, hi]) ?_ ih
    rw [hq.classes]
    exact hwithin.grows hq.insts

theorem Chain.valid (h : p.Chain c way e) : ∀ i ∈ way, p.insts.Valid i := by
  induction h with
  | nil => exact forall_mem_nil _
  | cons _ hwithin _ ih => exact forall_mem_cons.2 ⟨hwithin.valid, ih⟩

theorem Chain.arrive_works (hp : p.Canonical) (hway : p.Chain c way e)
    (hsat : ∀ i ∈ way, p.Saturated i) (hx : p.insts.Valid x) (hs : p.Saturated x) :
    Works Canonical p (way.foldlM (fun x i => stripInst i x) x)
      (fun y q => q.insts.Valid y ∧ q.Arrives x way y) False := by
  induction way generalizing p c x with
  | nil => exact .pure hp.tables hp ⟨hx, rfl⟩
  | cons i way ih =>
    cases hway with
    | cons hi hwithin hway =>
      rw [forall_mem_cons] at hsat
      have hvalid := hwithin.valid
      rw [foldlM_cons]
      refine (stripInst_saturated hp canonical_lawful hp hx hs hvalid).bind
        fun z q hq hcan ⟨hz, hstripped⟩ => ?_
      have hsatz := (hstripped.target (by rw [hq.insts.get_eq hvalid, hi])).2
        (hq.saturated hvalid hsat.1)
      refine (ih hcan (hway.adds hq) (fun k hk => hq.saturated (hway.valid k hk) (hsat.2 k hk)) hz
        hsatz).post fun y r hr _ ⟨hy, hrest⟩ =>
        ⟨hy, z, hstripped.grows hr.insts hr.params (hq.insts.valid hx), hrest⟩

theorem Stripped.unique (h : p.Stripped x t u) (h' : p.Stripped x t w) : w = u := by
  unfold Stripped at h h'
  split at h
  · rename_i hs
    rw [hs] at h'
    exact h.unique h'
  · rename_i hs
    rw [hs] at h'
    exact h'.trans h.symm

section This

variable {args : List InstId} (hp : p.Canonical)
include hp

section

variable
  (hargs : Forall₂ (fun x a => p.insts.Valid a ∧ p.insts.get a = ⟨.param x, []⟩)
    (p.classes.get c).params args)
include hargs

theorem Replaced.of_this {i : InstId} (hi : p.insts.Valid i) : p.Replaced ⟨c, args⟩ i i := by
  have hbelow := hp.tables.insts i
  obtain ⟨target, inner, hget⟩ : ∃ target inner, p.insts.get i = ⟨target, inner⟩ := ⟨_, _, rfl⟩
  cases target with
  | param x =>
    obtain ⟨hx, hnil⟩ := hp.bare i x hi (by rw [hget])
    by_cases howner : (p.params.get x).owner = c
    · have hparam := (hp.params c _ x).2 ⟨hx, howner, rfl⟩
      obtain ⟨a, ha⟩ := exists_getElem? hargs.length_eq hparam
      obtain ⟨hva, hgeta⟩ := (forall₂_iff_zip.1 hargs).2 (mem_zip_iff.2 ⟨_, hparam, ha⟩)
      rw [hget] at hnil
      obtain rfl := Pool.get_inj hva hi (by rw [hgeta, hget, ← show inner = [] from hnil])
      exact .own hi hget howner ha
    · exact .other hi hget howner
  | cls d =>
    refine .cls hi hget hi hget rfl fun v hv => ?_
    obtain ⟨n, h, h'⟩ := mem_zip_iff.1 hv
    have hlt := hbelow v.1 (by rw [hget]; exact mem_of_getElem? h)
    rw [← Option.some.inj (h.symm.trans h')]
    exact Replaced.of_this (Nat.lt_trans hlt hi)
termination_by i.index

theorem Retyped.of_this {t : TypeId} (ht : p.types.Valid t) : p.Retyped ⟨c, args⟩ t t := by
  refine .node ht ht rfl (fun v hv => ?_) fun i j hi hj => ?_
  · obtain ⟨n, h, h'⟩ := mem_zip_iff.1 hv
    have hlt := hp.tables.types.parts t v.1 (mem_of_getElem? h)
    rw [← Option.some.inj (h.symm.trans h')]
    exact Retyped.of_this (Nat.lt_trans hlt ht)
  · cases hi.symm.trans hj
    exact .of_this hp hargs (hp.tables.types.insts t i hi)
termination_by t.index

end

/-- From within a class, nothing looks different. -/
theorem IsThis.seen (h : p.IsThis c x) (ht : p.types.Valid t) : p.Stripped x t t := by
  obtain ⟨_, args, hget, hargs⟩ := h
  rw [Stripped, substitution?, hget]
  exact .of_this hp hargs ht

theorem IsThis.stripped (h : p.IsThis c x) (hu : p.Stripped x t u) : u = t := by
  obtain ⟨_, args, hget, hargs⟩ := h
  unfold Stripped substitution? at hu
  rw [hget] at hu
  have ht : p.types.Valid t := by
    cases hu
    assumption
  exact (Retyped.of_this hp hargs ht).unique hu

end This

theorem IsThis.replaced (hp : p.Canonical) {args : List InstId} (h : p.IsThis c x)
    (hi : p.insts.Valid i) (hget : p.insts.get i = ⟨.cls c, args⟩) (hs : p.Saturated i) :
    p.StrippedInst i x i := by
  obtain ⟨hx, params, hgetx, hparams⟩ := h
  have hlen : params.length = args.length :=
    hparams.length_eq.symm.trans ((saturated_cls hget).1 hs).symm
  rw [StrippedInst, substitution?, hget]
  refine Replaced.cls hx hgetx hi hget hlen fun v hv => ?_
  obtain ⟨n, ha, hb⟩ := mem_zip_iff.1 hv
  obtain ⟨y, hy⟩ := exists_getElem? hparams.length_eq.symm ha
  obtain ⟨hva, hgeta⟩ := (forall₂_iff_zip.1 hparams).2 (mem_zip_iff.2 ⟨n, hy, ha⟩)
  obtain ⟨_, howner, hindex⟩ := (hp.params c n y).1 hy
  exact .own hva hgeta howner (by rw [hindex]; exact hb)

section Agreement

variable {m m' : Edit α} {M N : α → Program → Prop}

def Agree (p : Program) (m m' : Edit α) : Prop :=
  (∃ a q r, m p = .ok a q ∧ m' q = .ok a r) ∧ ∃ a q r, m' p = .ok a q ∧ m q = .ok a r

theorem Works.exists_ok {I : Program → Prop} (h : Works I p m M False) :
    ∃ a q, m p = .ok a q ∧ p.Adds q ∧ I q ∧ M a q := by
  unfold Works Yields at h
  split at h
  · exact ⟨_, _, by assumption, h⟩
  · exact h.2.elim

/-- What both give is one and the same if it is determined however the tables grow. -/
theorem Agree.of_works (hp : p.Canonical)
    (hm : ∀ q, p.Adds q → q.Canonical → Works Canonical q m M False)
    (hm' : ∀ q, p.Adds q → q.Canonical → Works Canonical q m' N False)
    (hM : ∀ a q r, p.Adds q → q.Adds r → M a q → M a r)
    (hN : ∀ a q r, p.Adds q → q.Adds r → N a q → N a r)
    (heq : ∀ a b q, p.Adds q → q.Canonical → M a q → N b q → a = b) : p.Agree m m' := by
  have hhalf {m m' : Edit α} {M N : α → Program → Prop}
      (hm : ∀ q, p.Adds q → q.Canonical → Works Canonical q m M False)
      (hm' : ∀ q, p.Adds q → q.Canonical → Works Canonical q m' N False)
      (hM : ∀ a q r, p.Adds q → q.Adds r → M a q → M a r)
      (heq : ∀ a b q, p.Adds q → q.Canonical → M a q → N b q → a = b) : ∃ a q r, m p = .ok a q ∧
      m' q = .ok a r := by
    obtain ⟨a, q, hrun, hq, hcan, ha⟩ := (hm p (.refl hp.tables) hp).exists_ok
    obtain ⟨b, r, hrun', hr, hcan', hb⟩ := (hm' q hq hcan).exists_ok
    obtain rfl := heq a b r (hq.trans hr) hcan' (hM a q r hq hr ha) hb
    exact ⟨a, q, r, hrun, hrun'⟩
  exact ⟨hhalf hm hm' hM heq, hhalf hm' hm hN fun a b q hq hcan ha hb =>
    (heq b a q hq hcan hb ha).symm⟩

end Agreement

end ClassLang.Program

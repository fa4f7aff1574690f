import ClassLang.Proofs.Regions
import ClassLang.Proofs.Scope.Inheritance
import ClassLang.Proofs.Typing.Mentions

namespace ClassLang.Program

open List

variable {p q r : Program} {c d e : ClassId} {i j k x y z : InstId} {way way' : List InstId}
  {order : List ClassId}

theorem Laid.nodup (h : p.Laid order) : order.Nodup := by
  induction order with
  | nil => exact nodup_nil
  | cons c order ih => exact nodup_cons.2 ⟨h.1, ih h.2.2.2⟩

theorem Laid.after (h : p.Laid order) (hc : c ∈ order) :
    ∃ rest, rest.length < order.length ∧ rest ⊆ order ∧ c ∉ rest ∧ p.Flat c ∧
      (∀ x ∈ p.basesOf c, x.2 ∈ rest) ∧ p.Laid rest := by
  induction order with
  | nil => cases hc
  | cons d order ih =>
    obtain ⟨hnew, hflat, hbases, hrest⟩ := h
    rcases mem_cons.1 hc with rfl | hc
    · exact ⟨order, Nat.lt_succ_self _, subset_cons_self _ _, hnew, hflat, hbases, hrest⟩
    · obtain ⟨rest, hlen, hsub, hafter⟩ := ih hrest hc
      exact ⟨rest, Nat.lt_succ_of_lt hlen, subset_cons_of_subset _ hsub, hafter⟩

section Bases

variable (hp : p.BasesValid)
include hp

theorem Under.basesOf (h : p.Under q) (c : ClassId) : q.basesOf c = p.basesOf c := by
  rw [Program.basesOf, h.alike.bases, Program.basesOf]
  refine filterMap_congr fun b hb => ?_
  cases hi : b.inst with
  | none => rw [baseOf?, baseOf?, hi, Option.bind_none, Option.bind_none]
  | some x => simp only [baseOf?, hi, Option.bind_some, h.get_inst (hp c b hb x hi)]

theorem Under.path (h : p.Under q) (hpath : p.Path c way d) : q.Path c way d := by
  induction hpath with
  | nil => exact .nil
  | cons hi _ ih =>
    refine .cons ?_ ih
    rw [h.basesOf hp]
    exact hi

theorem Path.valid (hpath : p.Path c way d) : ∀ j ∈ way, p.insts.Valid j := by
  induction hpath with
  | nil => nofun
  | cons hi _ ih =>
    obtain ⟨base, hbase, hinst⟩ := mem_filterMap.1 hi
    exact forall_mem_cons.2 ⟨hp _ base hbase _ (baseOf?_eq_some.1 hinst).1, ih⟩

end Bases

theorem valid_of_mem_basesOf {x : InstId × ClassId} (h : x ∈ p.basesOf c) : p.classes.Valid c := by
  refine Arena.valid_of_get_ne fun hdefault => ?_
  rw [basesOf, hdefault] at h
  cases h

theorem Path.above (h : p.Path c way d) : Relation.ReflTransGen p.HasBase c d := by
  induction h with
  | nil => exact .refl
  | cons hi _ ih => exact .head ⟨_, hi⟩ ih

theorem Path.append {up : List InstId} (h : p.Path c way d) (h' : p.Path d up e) :
    p.Path c (way ++ up) e := by
  induction h with
  | nil => exact h'
  | cons hi _ ih => exact .cons hi (ih h')

def Arrives (p : Program) : InstId → List InstId → InstId → Prop
  | x, [], y => y = x
  | x, i :: way, y => ∃ z, p.StrippedInst x i z ∧ p.Arrives z way y

theorem Arrives.of_append (h : p.Arrives x (way ++ way') z) :
    ∃ y, p.Arrives x way y ∧ p.Arrives y way' z := by
  induction way generalizing x with
  | nil => exact ⟨x, rfl, h⟩
  | cons i way ih =>
    obtain ⟨k, hk, hrest⟩ := h
    obtain ⟨y, hy, hz⟩ := ih hrest
    exact ⟨y, ⟨k, hk, hy⟩, hz⟩

theorem Arrives.append (h : p.Arrives x way y) (h' : p.Arrives y way' z) :
    p.Arrives x (way ++ way') z := by
  induction way generalizing x with
  | nil =>
    cases h
    exact h'
  | cons i way ih =>
    obtain ⟨k, hk, hrest⟩ := h
    exact ⟨k, hk, ih hrest⟩

theorem StrippedInst.unique (h : p.StrippedInst x i j) (h' : p.StrippedInst x i k) : k = j := by
  unfold StrippedInst at h h'
  split at h
  · rename_i hs
    rw [hs] at h'
    exact h.unique h'
  · rename_i hs
    rw [hs] at h'
    exact h'.trans h.symm

theorem Arrives.unique (h : p.Arrives x way y) (h' : p.Arrives x way z) : z = y := by
  induction way generalizing x with
  | nil => exact h'.trans h.symm
  | cons i way ih =>
    obtain ⟨k, hk, hrest⟩ := h
    obtain ⟨k', hk', hrest'⟩ := h'
    rw [hk.unique hk'] at hrest'
    exact ih hrest hrest'

theorem StrippedInst.grows (h : p.StrippedInst x i j) (hinsts : p.insts.Grows q.insts)
    (hparams : q.params = p.params) (hx : p.insts.Valid x) : q.StrippedInst x i j := by
  unfold StrippedInst at h ⊢
  rw [substitution?_of_grows hinsts hx]
  split at h
  · exact h.grows hinsts hparams
  · exact h

theorem StrippedInst.valid (h : p.StrippedInst x i j) (hp : p.Tables) (hi : p.insts.Valid i) :
    p.insts.Valid j := by
  unfold StrippedInst at h
  split at h
  · rename_i hs
    exact h.valid (valid_of_substitution hp hs)
  · exact h ▸ hi

theorem StrippedInst.target (h : p.StrippedInst x i z) (hi : (p.insts.get i).target = .cls d) :
    (p.insts.get z).target = .cls d ∧ (p.Saturated i → p.Saturated z) := by
  obtain ⟨args, hget⟩ : ∃ args, p.insts.get i = ⟨.cls d, args⟩ := ⟨_, by rw [← hi]⟩
  unfold StrippedInst at h
  split at h
  · cases h with
    | own _ hget' _ _ | other _ hget' _ => cases hget.symm.trans hget'
    | cls _ hget' _ hgetz hlen _ =>
      cases hget.symm.trans hget'
      exact ⟨by rw [hgetz], fun hs =>
        (saturated_cls hgetz).2 (hlen.symm.trans ((saturated_cls hget).1 hs))⟩
  · subst h
    exact ⟨hi, id⟩

theorem Wired.saturated (hw : p.Wired) (hu : p.Under q) (hi : p.insts.Valid i) : q.Saturated i := by
  have hformed := hw.instances.formed i hi
  intro s hs
  rw [substitution?, hu.get_inst hi] at hs
  split at hs
  · rename_i hget
    cases hs
    rw [hget] at hformed
    rw [hu.alike.classParams]
    exact hformed.2
  · cases hs

theorem Arrives.adds (h : p.Arrives x way y) (hp : p.Tables) (hq : p.Adds q) (hx : p.insts.Valid x)
    (hway : ∀ i ∈ way, p.insts.Valid i) : q.Arrives x way y := by
  induction way generalizing x with
  | nil => exact h
  | cons i way ih =>
    obtain ⟨z, hz, hrest⟩ := h
    rw [forall_mem_cons] at hway
    exact ⟨z, hz.grows hq.insts hq.params hx, ih hrest (hz.valid hp hway.1) hway.2⟩

def Acts (p : Program) (x : InstId) (c : ClassId) (y : InstId) : Prop :=
  match (p.insts.get x).target with
  | .cls d => d = c ∧ y = x
  | .param a => (p.params.get a).bound = some c ∧ p.insts.Valid y ∧ p.insts.get y = ⟨.cls c, []⟩

theorem acts_of_target (h : (p.insts.get x).target = .cls c) : p.Acts x d y ↔ c = d ∧ y = x := by
  rw [Acts, h]

theorem Acts.classOf? (h : p.Acts x c y) : p.classOf? x = some c := by
  unfold Acts at h
  unfold Program.classOf?
  cases htarget : (p.insts.get x).target with
  | cls d =>
    rw [htarget] at h
    exact congrArg some h.1
  | param a =>
    rw [htarget] at h
    exact h.1

theorem Tidy.valid_classOf (h : p.Tidy) (hx : p.insts.Valid x) (hc : p.classOf? x = some c) :
    p.classes.Valid c := by
  have hformed := h.instances.formed x hx
  unfold Formed at hformed
  unfold classOf? at hc
  cases htarget : (p.insts.get x).target with
  | cls d =>
    rw [htarget] at hformed hc
    exact Option.some.inj hc ▸ hformed.1
  | param a =>
    rw [htarget] at hc
    exact (h.bounds a c hc).1

def Climbs (p q : Program) (x : InstId) (d : ClassId) (y : InstId) : Prop :=
  ∃ c z way, q.Acts x c z ∧ p.Path c way d ∧ q.Arrives z way y

def Rises (p q : Program) (x y : InstId) : Prop :=
  x = y ∨ ∃ d, (q.insts.get y).target = .cls d ∧ p.Climbs q x d y

/-- The way up over the first base, at each class, from which `d` can be reached. -/
inductive FirstWay (p : Program) (d : ClassId) : ClassId → List InstId → Prop
  | nil : FirstWay p d d []
  | cons {c e : ClassId} {i : InstId} {way : List InstId} : c ≠ d →
      (p.basesOf c).find? (fun x => p.derivesFrom x.2 d) = some (i, e) → FirstWay p d e way →
        FirstWay p d c (i :: way)

theorem FirstWay.path (h : p.FirstWay d c way) : p.Path c way d := by
  induction h with
  | nil => exact .nil
  | cons _ hfind _ ih => exact .cons (mem_of_find?_eq_some hfind) ih

theorem FirstWay.unique (h : p.FirstWay d c way) (h' : p.FirstWay d c way') : way' = way := by
  induction h generalizing way' with
  | nil =>
    cases h' with
    | nil => rfl
    | cons hne _ _ => exact absurd rfl hne
  | cons hne hfind _ ih =>
    cases h' with
    | nil => exact absurd rfl hne
    | cons _ hfind' h' =>
      cases hfind.symm.trans hfind'
      rw [ih h']

theorem Laid.derivesFrom_iff (h : p.Laid order) (hc : c ∈ order) :
    p.derivesFrom c d = true ↔ Relation.ReflTransGen p.HasBase c d := by
  rw [Relation.reflTransGen_iff_eq_or_transGen, ← h.mem_ancestors_iff hc]
  simp only [derivesFrom, contains_iff_mem, decide_eq_true_iff]
  rw [eq_comm]

/-- A class is one of an order that is not longer than the list of classes. -/
theorem Wired.ordering (hw : p.Wired) (hu : p.Under q) (hc : q.classes.Valid c) :
    ∃ order, p.Laid order ∧ order.length ≤ q.classes.size ∧ c ∈ order := by
  obtain ⟨order, hlaid, horder⟩ := hw.laid
  have hlen := Flatten.length_le_size hlaid.nodup fun d hd => (horder d).1 hd
  exact ⟨order, hlaid, by rwa [hu.alike.classesSize],
    (horder c).2 (Nat.lt_of_lt_of_eq hc hu.alike.classesSize)⟩

theorem Flat.insts_eq (h : p.Flat c) :
    (p.classes.get c).bases.filterMap Base.inst = (p.basesOf c).map Prod.fst := by
  rw [basesOf, map_filterMap]
  refine filterMap_congr fun b hb => ?_
  obtain ⟨x, hx⟩ := Option.isSome_iff_exists.1 (h.bound b hb)
  rw [hx, (baseOf?_eq_some.1 hx).1, Option.map_some]

def Rung (p q : Program) (x : InstId) (c d : ClassId) (b : Option InstId) : Prop :=
  b.elim (p.derivesFrom c d = false) fun y => q.insts.Valid y ∧ ∃ way, p.FirstWay d c way ∧
    q.Arrives x way y

section Upcasts

variable {I : Program → Prop} {F : Prop}

theorem firstSome_works {α β γ : Type} {xs : List α} {g : α → β} {f : β → Edit (Option γ)}
    {N : α → Prop} {P : α → γ → Program → Prop} (ht : ∀ p, I p → p.Tables) (hp : I p)
    (hf : ∀ x ∈ xs, ∀ q, p.Adds q → I q →
      Works I q (f (g x)) (fun b r => b.elim (N x) (P x · r)) F) :
    Works I p (firstSome f (xs.map g))
      (fun b q => b.elim (∀ x ∈ xs, N x) fun y => ∃ before x after, xs = before ++ x :: after ∧
        (∀ z ∈ before, N z) ∧ P x y q) F := by
  induction xs generalizing p with
  | nil => exact .pure (ht p hp) hp (forall_mem_nil _)
  | cons x xs ih =>
    refine (hf x mem_cons_self p (.refl (ht p hp)) hp).bind fun b q hq hIq hb => ?_
    cases b with
    | some y => exact .pure hq.tables hIq ⟨[], x, xs, rfl, forall_mem_nil _, hb⟩
    | none =>
      refine (ih hIq fun y hy r hr => hf y (mem_cons_of_mem x hy) r (hq.trans hr)).post
        fun b r _ _ hrest => ?_
      cases b with
      | some y =>
        obtain ⟨before, z, after, rfl, hbefore, hy⟩ := hrest
        exact ⟨x :: before, z, after, rfl, forall_mem_cons.2 ⟨hb, hbefore⟩, hy⟩
      | none => exact forall_mem_cons.2 ⟨hb, hrest⟩

variable (hI : Lawful I) (hcan : ∀ q, I q → q.Canonical) (hw : p.Wired) (hu : p.Under q) (hq : I q)
  (hx : q.insts.Valid x) (hsat : q.Saturated x) (hlaid : p.Laid order) (hin : c ∈ order)
include hI hcan hw hu hq hx hsat hlaid hin

/-- One step up: the first way from `c` is that from the first base that has one. -/
theorem upcastFrom_works {below : InstId → Edit (Option InstId)}
    (hbelow : ∀ i e r z, (i, e) ∈ p.basesOf c → p.Under r → I r → r.insts.Valid z → r.Saturated z →
      (r.insts.get z).target = .cls e → Works I r (below z) (fun b r' => p.Rung r' z e d b) False) :
    Works I q (upcastFrom (p.classes.get c).bases (p.derivesFrom c d) below c d x)
      (fun b r => p.Rung r x c d b) False := by
  obtain ⟨_, _, _, _, hflat, _⟩ := hlaid.after hin
  have htables := hI.tables hq
  unfold upcastFrom
  split
  · rename_i heq
    exact .pure htables hq ⟨hx, [], heq ▸ .nil, rfl⟩
  rename_i hne
  split
  · rename_i hnot
    exact .pure htables hq (by simpa [Rung] using hnot)
  rename_i hyes
  rw [hflat.insts_eq]
  refine (firstSome_works (N := fun b => p.derivesFrom b.2 d = false)
    (P := fun b y r => r.insts.Valid y ∧ ∃ way, p.FirstWay d b.2 way ∧ r.Arrives x (b.1 :: way) y)
    (fun _ => hI.tables) hq fun b hmem r1 h1 hI1 => ?_).post fun b r hr _ hb => ?_
  · obtain ⟨i, e⟩ := b
    obtain ⟨b, hb, hbase⟩ := mem_filterMap.1 hmem
    obtain ⟨hinst, htarget⟩ := baseOf?_eq_some.1 hbase
    have hvalid := hw.shaped.bases c b hb i hinst
    have hu1 := hu.trans h1.under
    have hx1 := h1.insts.valid hx
    refine (stripInst_saturated (hcan r1 hI1) hI hI1 hx1 (h1.saturated hx hsat)
      (hu1.insts.valid hvalid)).bind fun z r2 h2 hI2 ⟨hz, hstripped⟩ => ?_
    have hu2 := hu1.trans h2.under
    obtain ⟨hclass, hsatz⟩ := hstripped.target (by rw [hu2.get_inst hvalid]; exact htarget)
    refine (hbelow i e r2 z hmem hu2 hI2 hz (hsatz (hw.saturated hu2 hvalid)) hclass).post
      fun b r3 h3 _ hb => ?_
    cases b with
    | none => exact hb
    | some y =>
      obtain ⟨hy, way, hway, harrives⟩ := hb
      exact ⟨hy, way, hway, z, hstripped.grows h3.insts h3.params (h2.insts.valid hx1), harrives⟩
  · have hderives {e : ClassId} (he : e ∈ order) (habove : Relation.ReflTransGen p.HasBase e d) :
      p.derivesFrom e d = true := (hlaid.derivesFrom_iff he).2 habove
    cases b with
    | none =>
      obtain heq | ⟨e, ⟨i, hi⟩, habove⟩ :=
        ((hlaid.derivesFrom_iff hin).1 (by simpa using hyes)).cases_head
      · exact absurd heq hne
      · cases (hb (i, e) hi).symm.trans (hderives (hlaid.base hin hi) habove)
    | some y =>
      obtain ⟨before, b, after, heq, hbefore, hy, way, hway, harrives⟩ := hb
      refine ⟨hy, b.1 :: way, .cons hne (find?_eq_some_iff_append.2 ⟨?_, before, after, heq, ?_⟩)
        hway, harrives⟩
      · exact hderives (hlaid.base hin (x := b) (by simp [heq])) hway.path.above
      · exact fun z hz => by simp [hbefore z hz]

theorem upcastUpTo_works {n : Nat} (hn : order.length ≤ n) (hc : (q.insts.get x).target = .cls c) :
    Works I q (upcastUpTo n x d) (fun b r => p.Rung r x c d b) False := by
  induction n generalizing q x c order with
  | zero => exact absurd (length_pos_of_mem hin) (Nat.not_lt.2 hn)
  | succ n ih =>
    rw [upcastUpTo_succ]
    refine .get ?_
    simp only [upcastAt, classOf?, hc, pure_bind, hu.alike.bases, derivesFrom, hu.alike.ancestors]
    refine upcastFrom_works hI hcan hw hu hq hx hsat hlaid hin
      fun i e r z hmem hu' hI' hz hsatz hclass => ?_
    obtain ⟨rest, hlen, _, _, _, hbases, hrest⟩ := hlaid.after hin
    exact ih hu' hI' hz hsatz hrest (hbases _ hmem) (by omega) hclass

end Upcasts

section Upcasts

variable (hw : p.Wired) (hu : p.Under q) (hq : q.Tidy) (hx : q.insts.Valid x)
include hw hu hq hx

theorem upcastUpTo_mends {n : Nat} (hn : q.classes.size ≤ n) (hc : q.classOf? x = some c) :
    Mends q (upcastUpTo (n + 1) x d) fun b r => ∃ z, r.Acts x c z ∧ p.Rung r z c d b := by
  obtain ⟨order, hlaid, hlen, hin⟩ := hw.ordering hu (hq.valid_classOf hx hc)
  have hcan (q : Program) : q.Tidy → q.Canonical := Tidy.canonical
  have hn' : order.length ≤ n := Nat.le_trans hlen hn
  cases htarget : (q.insts.get x).target with
  | cls e =>
    have hsame := hc
    rw [classOf?, htarget] at hsame
    cases hsame
    refine mends_iff.2 ((upcastUpTo_works tidy_lawful hcan hw hu hq hx (hq.saturated hx) hlaid hin
      (Nat.le_succ_of_le hn') htarget).post fun b r hr _ hb =>
      ⟨x, (acts_of_target (by rw [hr.insts.get_eq hx, htarget])).2 ⟨rfl, rfl⟩, hb⟩)
  | param a =>
    rw [upcastUpTo_succ]
    refine .get ?_
    simp only [upcastAt, hc, htarget, hu.alike.bases, derivesFrom, hu.alike.ancestors]
    rw [classOf?, htarget] at hc
    obtain ⟨hvalid, hparams⟩ := hq.bounds a c hc
    have hformed : q.Formed ⟨.cls c, []⟩ := ⟨hvalid, by simp [hparams]⟩
    refine (internInst_mends hq (forall_mem_nil _) hformed).bind fun y r hr htidy hnew =>
      mends_iff.2 ?_
    obtain ⟨hy, hget⟩ := hnew
    refine (upcastFrom_works tidy_lawful hcan hw (hu.trans hr.under) htidy hy
      (htidy.saturated hy) hlaid hin fun i e r' z hmem hu' htidy' hz hsatz hclass => ?_).post
      fun b r' hr' _ hb => ⟨y, ?_, hb⟩
    · exact upcastUpTo_works tidy_lawful hcan hw hu' htidy' hz hsatz hlaid
        (hlaid.base hin hmem) hn' hclass
    · rw [Acts, (hr.trans hr').insts.get_eq hx, htarget, (hr.trans hr').params,
        hr'.insts.get_eq hy, hget]
      exact ⟨hc, hr'.insts.valid hy, rfl⟩

/-- If `x` is an instance of `d` over some way, one such instance is found. -/
theorem upcast_mends : Mends q (upcast x d) fun b r =>
    b.elim (∀ y, ¬ p.Climbs r x d y) fun y => r.insts.Valid y ∧ p.Climbs r x d y := by
  unfold upcast
  refine .get ?_
  cases hc : q.classOf? x with
  | none =>
    rw [upcastUpTo_succ]
    refine .get ?_
    rw [upcastAt, hc]
    refine .pure hq ?_
    rintro y ⟨c, z, way, hacts, _⟩
    cases hc.symm.trans hacts.classOf?
  | some c =>
    obtain ⟨order, hlaid, _, hin⟩ := hw.ordering hu (hq.valid_classOf hx hc)
    refine (upcastUpTo_mends hw hu hq hx (Nat.le_refl _) hc).imp fun b r hr _ hrung => ?_
    obtain ⟨z, hacts, hb⟩ := hrung
    cases b with
    | some y =>
      obtain ⟨hy, way, hway, harrives⟩ := hb
      exact ⟨hy, c, z, way, hacts, hway.path, harrives⟩
    | none =>
      rintro y ⟨c', z, way, hacts, hway, _⟩
      have hsame := hacts.classOf?
      rw [hr.under.classOf? hx, hc] at hsame
      cases hsame
      cases hb.symm.trans ((hlaid.derivesFrom_iff hin).2 hway.above)

/-- If the answer is no although `x` is `y` over some way up, it is another instance of that class
over another way. -/
theorem isSubinst_mends (hy : q.insts.Valid y) :
    Mends q (isSubinst x y) fun b r => if b then p.Rises r x y else
    p.Rises r x y → ∃ d z, (q.insts.get y).target = .cls d ∧ p.Climbs r x d z ∧ z ≠ y := by
  unfold isSubinst
  split
  · rename_i heq
    exact .pure hq (.inl heq)
  rename_i hne
  refine .get ?_
  split
  · rename_i d htarget
    refine (upcast_mends hw hu hq hx).bind fun b r hr htidy hb => .pure htidy ?_
    by_cases hfound : b = some y
    · rw [if_pos (decide_eq_true hfound)]
      rw [hfound] at hb
      exact .inr ⟨d, by rw [hr.insts.get_eq hy, htarget], hb.2⟩
    · rw [if_neg (mt of_decide_eq_true hfound)]
      rintro (heq | ⟨d', hd', hy'⟩)
      · exact absurd heq hne
      rw [hr.insts.get_eq hy, htarget] at hd'
      cases hd'
      cases b with
      | none => exact (hb y hy').elim
      | some z => exact ⟨d, z, htarget, hb.2, fun heq => hfound (congrArg some heq)⟩
  · rename_i a htarget
    refine .pure hq ?_
    rintro (heq | ⟨d, hd, _⟩)
    · exact absurd heq hne
    · cases htarget.symm.trans hd

end Upcasts

end ClassLang.Program

import ClassLang.Proofs.Typing.Known
import ClassLang.Proofs.Typing.Mentions

namespace ClassLang.Program

open TypeTable Typing

variable {p q : Program} {a t u : TypeId} {how : Storing} {v : VarId} {l : LambdaId}

/-- What has type `a` can be applied to `params`; a placeholder can be as soon as it has a
signature. -/
inductive Signs (p : Program) (a : TypeId) (params : List TypeId) (result : TypeId) : Prop
  | lambda : p.types.get a = .lambda params result → Signs p a params result
  | function : p.types.get a = .function params result → Signs p a params result
  | cold {c : ColdId} {u : TypeId} : p.types.get a = .cold c →
      (p.colds.lookup c).signature = some u →
      p.types.get u = .lambda params result → Signs p a params result

/-- How a value of type `a` gets into a place of type `t` where all placeholders have signatures. -/
inductive Enters (p : Program) : TypeId → TypeId → Storing → Prop
  | same {t : TypeId} : Enters p t t .direct
  | never {t : TypeId} : Enters p TypeId.noReturn t .direct
  | kept {a t : TypeId} {want given : RefKind × InstId} : p.types.ref? t = some want →
      p.types.ref? a = some given →
      p.Again (isSubinst given.2 want.2) true → keepsKind want.1 given.1 = true →
        Enters p a t .direct
  | weakened {a t : TypeId} {inst : InstId} {given : RefKind × InstId} : p.types.ref? t = some
      (.weak, inst) →
      p.types.ref? a = some given → p.Again (isSubinst given.2 inst) true →
        keepsKind .weak given.1 = false →
      Enters p a t (.weaken inst)
  | optional {a t given want : TypeId} {depth : Nat} : p.types.get t = .optional want depth →
      p.types.get a = .optional given depth → Enters p given want .direct → Enters p a t .direct
  | cold {a t u : TypeId} {c d : ColdId} : p.types.get t = .cold d → p.types.get a = .cold c →
      (p.colds.lookup d).signature = some u → (p.colds.lookup c).signature = some u →
        Enters p a t .direct
  | procedure {a t result : TypeId} {params : List TypeId} : p.types.get t =
      .lambda params TypeId.void →
      p.Signs a params result → Enters p a t .direct
  | lambda {a t given want : TypeId} {params : List TypeId} {how : Storing} :
      p.types.get t = .lambda params want →
      p.Signs a params given → Enters p given want how → Enters p a t .direct

def Delivers (p : Program) (i : NodeId) (t : TypeId) : Prop :=
  ∃ a, p.slot i = .fixed a ∧ p.Enters a t .direct

def Normal (p : Program) (a t : TypeId) : Prop :=
  t = a ∨ ∃ c, p.types.get a = .cold c ∧ (p.colds.lookup c).signature = some t

/-- The parameter `v` takes what has type `t`: one with a declared type by storing it there, another
by having it for its own type. -/
def Accepts (p : Program) (v : VarId) (t : TypeId) : Prop :=
  ∃ u, (p.vars.get v).slot = .fixed u ∧ ((p.vars.get v).init = none → p.Normal u t) ∧
    ((p.vars.get v).init ≠ none → Plain p.types u → ∃ how, p.Enters t u how)

def Fitted (p : Program) (t : TypeId) (l : LambdaId) : Prop :=
  ∃ params result, p.types.get t = .lambda params result ∧
    List.Forall₂ p.Accepts (p.lambdas.get l).params params

def Fitting (p : Program) : Prop :=
  ∀ r, (p.colds.get r).forward = none → ∀ t, (p.colds.get r).signature = some t →
    ∀ l ∈ (p.colds.get r).sites, p.Fitted t l

structure Steady (p q : Program) : Prop where
  slots : ∀ v t, (p.vars.get v).slot = .fixed t → (q.vars.get v).slot = .fixed t
  signatures : ∀ c t, (p.colds.lookup c).signature = some t → (q.colds.lookup c).signature = some t

section Keeping

variable (hk : p.Keeps q)

section Entering

variable
  (hsig : ∀ c t, (p.colds.lookup c).signature = some t → (q.colds.lookup c).signature = some t)
include hk hsig

theorem Signs.keeps {params : List TypeId} {result : TypeId} (h : p.Signs a params result) :
    q.Signs a params result := by
  cases h with
  | lambda h => exact .lambda (get_of_grows hk.types h nofun)
  | function h => exact .function (get_of_grows hk.types h nofun)
  | cold h ht hu =>
    exact .cold (get_of_grows hk.types h nofun) (hsig _ _ ht) (get_of_grows hk.types hu nofun)

theorem Enters.keeps (h : p.Enters a t how) : q.Enters a t how := by
  induction h with
  | same => exact .same
  | never => exact .never
  | kept ht ha hsub hkind =>
    exact .kept (ref?_of_grows hk.types ht) (ref?_of_grows hk.types ha) (hsub.mono hk.under) hkind
  | weakened ht ha hsub hkind =>
    exact .weakened (ref?_of_grows hk.types ht) (ref?_of_grows hk.types ha)
      (hsub.mono hk.under) hkind
  | optional ht ha _ ih =>
    exact .optional (get_of_grows hk.types ht nofun) (get_of_grows hk.types ha nofun) ih
  | cold ht ha hd hc =>
    exact .cold (get_of_grows hk.types ht nofun) (get_of_grows hk.types ha nofun) (hsig _ _ hd)
      (hsig _ _ hc)
  | procedure ht ha => exact .procedure (get_of_grows hk.types ht nofun) (ha.keeps hk hsig)
  | lambda ht ha _ ih => exact .lambda (get_of_grows hk.types ht nofun) (ha.keeps hk hsig) ih

theorem Delivers.keeps {i : NodeId} (h : p.Delivers i t) : q.Delivers i t := by
  obtain ⟨a, ha, henters⟩ := h
  exact ⟨a, hk.slots i a ha, henters.keeps hk hsig⟩

theorem Normal.keeps (h : p.Normal a t) : q.Normal a t :=
  h.imp_right fun ⟨c, ha, ht⟩ => ⟨c, get_of_grows hk.types ha nofun, hsig c t ht⟩

end Entering

variable (hq : p.Steady q) (hp : p.Coherent)
include hk hq hp

theorem Accepts.keeps (h : p.Accepts v t) : q.Accepts v t := by
  obtain ⟨u, hslot, hbare, hdeclared⟩ := h
  refine ⟨u, hq.slots v u hslot, ?_, ?_⟩ <;> rw [hk.alike.init]
  · exact fun hi => (hbare hi).keeps hk hq.signatures
  · intro hi hplain
    obtain ⟨how, henters⟩ :=
      hdeclared hi (hplain.restrict hk.types hp.tables.types (hp.varTypes v u hslot))
    exact ⟨how, henters.keeps hk hq.signatures⟩

theorem Fitted.keeps (h : p.Fitted t l) : q.Fitted t l := by
  obtain ⟨params, result, hget, haccepts⟩ := h
  refine ⟨params, result, get_of_grows hk.types hget nofun, ?_⟩
  rw [hk.alike.lambdaParams]
  exact haccepts.imp fun _ _ h => h.keeps hk hq hp

end Keeping

/-- What gets into a place without placeholders does so as well by its signature. -/
theorem Enters.normal (hp : p.Tables) (h : p.Enters a t how) (ha : p.Normal a u)
    (ht : Plain p.types t) : p.Enters u t how := by
  obtain rfl | ⟨c, hc, hsig⟩ := ha
  · exact h
  -- A placeholder only gets where a lambda is expected.
  have hsigns {params : List TypeId} {result : TypeId} (h : p.Signs a params result) :
      p.Signs u params result := by
    cases h with
    | lambda h => cases hc.symm.trans h
    | function h => cases hc.symm.trans h
    | cold h hs hu =>
      cases hc.symm.trans h
      cases hsig.symm.trans hs
      exact .lambda hu
  cases h with
  | same => exact (ht.cold hc).elim
  | never => cases hc.symm.trans (hp.types.get_basic (by decide))
  | kept _ ha _ _ => cases hc.symm.trans (ref?_eq_some.1 ha)
  | weakened _ ha _ _ => cases hc.symm.trans (ref?_eq_some.1 ha)
  | optional _ ha _ => cases hc.symm.trans ha
  | cold hd _ _ _ => exact (ht.cold hd).elim
  | procedure ht ha => exact .procedure ht (hsigns ha)
  | lambda ht ha hin => exact .lambda ht (hsigns ha) hin

theorem Normal.trans (hp : p.ColdsSound) (h : p.Normal a t) (h' : p.Normal t u) : p.Normal a u := by
  obtain rfl | ⟨c, hc, hsig⟩ := h
  · exact h'
  obtain rfl | ⟨d, hd, _⟩ := h'
  · exact .inr ⟨c, hc, hsig⟩
  obtain ⟨params, result, hget⟩ := hp.signatures _ t hsig
  cases hd.symm.trans hget

theorem Accepts.normal (hp : p.Coherent) (h : p.Accepts v t) (ht : p.Normal t u) :
    p.Accepts v u := by
  obtain ⟨w, hslot, hbare, hdeclared⟩ := h
  refine ⟨w, hslot, fun hi => (hbare hi).trans hp.colds ht, fun hi hplain => ?_⟩
  obtain ⟨how, henters⟩ := hdeclared hi hplain
  exact ⟨how, henters.normal hp.tables ht hplain⟩

end ClassLang.Program

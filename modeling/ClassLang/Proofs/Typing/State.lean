import ClassLang.Proofs.History
import ClassLang.Proofs.Typing.Fitting
import ClassLang.Proofs.Typing.Remaining

namespace ClassLang

namespace Program

def Unapplied (p : Program) (l : LambdaId) : Prop :=
  ∀ v ∈ (p.lambdas.get l).params, (p.vars.get v).init = none → ¬ p.VarKnown v

/-- A placeholder has a signature only after all its lambdas were typed. -/
def Signed (p : Program) : Prop :=
  ∀ r, (p.colds.get r).forward = none → (p.colds.get r).signature ≠ none →
    ∀ l ∈ (p.colds.get r).sites, p.LambdaKnown l

structure Unhurried (p : Program) : Prop where
  sites : ∀ r, (p.colds.get r).forward = none → (p.colds.get r).signature = none →
    (p.colds.get r).fixing = false → ∀ l ∈ (p.colds.get r).sites, p.Unapplied l
  unplaced : ∀ l, (p.lambdas.get l).cold = none → p.Unapplied l
  fixing : ∀ r, (p.colds.get r).forward = none → (p.colds.get r).fixing = true →
    (p.colds.get r).signature = none

structure Lasts (p q : Program) : Prop where
  roles : ∀ v, (q.vars.get v).role = (p.vars.get v).role
  fields : ∀ v c t, (p.vars.get v).role = .field c → (p.vars.get v).slot = .fixed t →
    (q.vars.get v).slot = .fixed t
  methods : ∀ m t, (p.methods.get m).slot = .fixed t → (q.methods.get m).slot = .fixed t
  functions : ∀ f t, (p.functions.get f).slot = .fixed t → (q.functions.get f).slot = .fixed t

variable {p q r : Program}

@[refl] theorem Lasts.refl (p : Program) : p.Lasts p :=
  ⟨fun _ => rfl, fun _ _ _ _ => id, fun _ _ => id, fun _ _ => id⟩

theorem Lasts.trans (h : p.Lasts q) (h' : q.Lasts r) : p.Lasts r where
  roles v := (h'.roles v).trans (h.roles v)
  fields v c t hrole ht := h'.fields v c t ((h.roles v).trans hrole) (h.fields v c t hrole ht)
  methods m t ht := h'.methods m t (h.methods m t ht)
  functions f t ht := h'.functions f t (h.functions f t ht)

end Program

namespace Typing

structure Logged (p0 : Program) (s : PassState) : Prop where
  replay : p0.marks.replay s.writes = s.program.marks
  clean : p0.marks.Throughout (fun m w => m.Kept (w.mark m) ∨ m.Refixes w) s.writes
  bare : ∀ v t, Write.param v t ∈ s.writes → (p0.vars.get v).role = .param ∧
    (p0.vars.get v).init = none
  once : p0.marks.Calm s.writes → p0.marks.Fresh s.writes →
    p0.marks.Throughout (fun m w => ¬ m.Refixes w) s.writes

structure Stopped (p0 : Program) (s : PassState) : Prop extends Logged p0 s where
  coherent : s.program.Coherent

structure Inv (p0 : Program) (s : PassState) : Prop where
  alike : p0.Alike s.program
  coherent : s.program.Coherent
  logged : Logged p0 s
  signed : p0.marks.Calm s.writes → s.program.Signed
  unhurried : p0.marks.Calm s.writes → p0.marks.Fresh s.writes → s.program.Unhurried
  fitting : p0.marks.Calm s.writes → p0.marks.Fresh s.writes → s.program.Fitting

/-- What is being worked on, and so is exempt from what steps do elsewhere: the node whose rule is
applied, the lambdas for which parameters were chosen, the entries of modules, the placeholders that
get a signature, the classes that get a table, the methods and functions that get another body. -/
structure Focus where
  node : Option NodeId := none
  sites : List LambdaId := []
  entries : List FunctionId := []
  colds : List ColdId := []
  tables : ClassId → Prop := fun _ => False
  methods : MethodId → Prop := fun _ => False
  functions : FunctionId → Prop := fun _ => False

structure Stays (f : Focus) (p q : Program) : Prop extends p.Lasts q where
  tables : ∀ c, ¬ f.tables c → q.classes.get c = p.classes.get c
  methodBodies : ∀ m, ¬ f.methods m → (q.methods.get m).body = (p.methods.get m).body
  functionBodies : ∀ d, ¬ f.functions d → (q.functions.get d).body = (p.functions.get d).body

inductive BodyKept (q : Program) : Option NodeId → Option NodeId → Prop
  | same (b : Option NodeId) : BodyKept q b b
  | typed (b b' : NodeId) : q.Known b' → BodyKept q (some b) (some b')

def Pending (p : Program) (i : NodeId) : Prop :=
  p.slot i = .inProgress ∨ p.Known i ∧ ((p.form i).isTarget ∨ (p.form i).isType ∧ p.Done i)

structure Step (p0 : Program) (f : Focus) (s s' : PassState) : Prop where
  inv : Inv p0 s'
  keeps : s.program.Keeps s'.program
  winds : p0.Winds s.program s'.program
  log : s.writes <:+ s'.writes
  empty : ∀ i, s'.program.slot i = .empty → s.program.slot i = .empty
  begun : ∀ i, f.node ≠ some i → s.program.slot i = .inProgress →
    s'.program.form i = s.program.form i ∧ Pending s'.program i
  new : ∀ i, f.node ≠ some i → s.program.slot i = .empty → s'.program.slot i = .empty ∨
    s'.program.Done i
  methods : ∀ m, BodyKept s'.program (s.program.methods.get m).body (s'.program.methods.get m).body
  functions : ∀ d, BodyKept s'.program (s.program.functions.get d).body
    (s'.program.functions.get d).body
  entries : ∀ m d, (s.program.modules.get m).entry = some d → d ∉ f.entries →
    (s'.program.functions.get d).slot = (s.program.functions.get d).slot
  applied : ∀ l v, l ∉ f.sites → v ∈ (s.program.lambdas.get l).params →
    (s.program.vars.get v).init = none → ¬ s.program.VarKnown v → s'.program.VarKnown v →
    s'.program.LambdaKnown l
  shielded : p0.marks.Calm s'.writes → ∀ r, (s.program.colds.get r).forward = none →
    (s.program.colds.get r).fixing = true → s'.program.colds.get r = s.program.colds.get r
  untouched : p0.marks.Calm s'.writes → p0.marks.Fresh s'.writes →
    ∀ r, (s.program.colds.get r).forward = none → (s.program.colds.get r).fixing = true →
    ∀ l ∈ (s.program.colds.get r).sites, l ∉ f.sites → ∀ v ∈ (s.program.lambdas.get l).params,
    (s.program.vars.get v).init = none → (s'.program.vars.get v).slot = (s.program.vars.get v).slot
  firm : ∀ c, (s.program.colds.lookup c).signature ≠ none →
    (∀ x ∈ f.colds, s.program.colds.find x ≠ s.program.colds.find c) →
    s.program.colds.Firm s'.program.colds c
  stays : Stays f s.program s'.program

variable {p0 p q r : Program} {f g : Focus} {s s' s'' : PassState}

theorem Stays.of_eq (hclasses : q.classes = p.classes) (hvars : q.vars = p.vars)
    (hmethods : q.methods = p.methods) (hfunctions : q.functions = p.functions) : Stays f p q where
  roles v := by rw [hvars]
  fields v c t _ ht := by rwa [hvars]
  methods m t ht := by rwa [hmethods]
  functions f t ht := by rwa [hfunctions]
  tables c _ := by rw [hclasses]
  methodBodies m _ := by rw [hmethods]
  functionBodies d _ := by rw [hfunctions]

theorem Stays.trans (h : Stays f p q) (h' : Stays f q r) : Stays f p r where
  toLasts := h.toLasts.trans h'.toLasts
  tables c hc := (h'.tables c hc).trans (h.tables c hc)
  methodBodies m hm := (h'.methodBodies m hm).trans (h.methodBodies m hm)
  functionBodies d hd := (h'.functionBodies d hd).trans (h.functionBodies d hd)

theorem Inv.stopped (h : Inv p0 s) : Stopped p0 s := ⟨h.logged, h.coherent⟩

theorem BodyKept.trans {b b' b'' : Option NodeId} (h : BodyKept q b b') (h' : BodyKept r b' b'')
    (hk : q.Keeps r) : BodyKept r b b'' := by
  cases h' with
  | same =>
    cases h with
    | same => exact .same b
    | typed b b' hb => exact .typed b b' (hk.known hb)
  | typed b' b'' hb =>
    cases h with
    | same => exact .typed b' b'' hb
    | typed b b' _ => exact .typed b b'' hb

theorem Pending.keep {i : NodeId} (hp : p.Coherent) (h : p.Keeps q)
    (hi : p.Known i ∧ ((p.form i).isTarget ∨ (p.form i).isType ∧ p.Done i)) : Pending q i := by
  refine .inr ⟨h.known hi.1, ?_⟩
  rw [h.forms i hi.1]
  exact hi.2.imp id fun hd => ⟨hd.1, h.done hp hd.2⟩

theorem Step.refl (h : Inv p0 s) : Step p0 f s s where
  inv := h
  keeps := .refl h.coherent.colds.rooted
  winds := .refl p0 _
  log := List.suffix_refl _
  empty _ := id
  begun _ _ hi := ⟨rfl, .inl hi⟩
  new _ _ hi := .inl hi
  methods _ := .same _
  functions _ := .same _
  entries _ _ _ _ := rfl
  applied _ _ _ _ _ hn hv := absurd hv hn
  shielded _ _ _ _ := rfl
  untouched _ _ _ _ _ _ _ _ _ _ _ := rfl
  firm c _ _ := .refl _ c
  stays := .of_eq rfl rfl rfl rfl

theorem Step.mono (h : Step p0 f s s') (hnode : ∀ i, f.node = some i → g.node = some i)
    (hsites : ∀ l ∈ f.sites, l ∈ g.sites)
    (hentries : ∀ m d, (s.program.modules.get m).entry = some d → d ∈ f.entries → d ∈ g.entries)
    (hcolds : ∀ x ∈ f.colds, x ∈ g.colds) (htables : ∀ c, f.tables c → g.tables c)
    (hmethods : ∀ m, f.methods m → g.methods m) (hfunctions : ∀ d, f.functions d → g.functions d) :
    Step p0 g s s' :=
  { h with
    begun := fun i hi => h.begun i fun he => hi (hnode i he)
    new := fun i hi => h.new i fun he => hi (hnode i he)
    entries := fun m d hd hf => h.entries m d hd fun he => hf (hentries m d hd he)
    applied := fun l v hl => h.applied l v fun he => hl (hsites l he)
    untouched := fun hc hf r hr hx l hl hs => h.untouched hc hf r hr hx l hl fun he =>
      hs (hsites l he)
    firm := fun c hc hother => h.firm c hc fun x hx => hother x (hcolds x hx)
    stays :=
      { h.stays with
        tables := fun c hc => h.stays.tables c (mt (htables c) hc)
        methodBodies := fun m hm => h.stays.methodBodies m (mt (hmethods m) hm)
        functionBodies := fun d hd => h.stays.functionBodies d (mt (hfunctions d) hd) } }

theorem Step.widen (h : Step p0 {} s s') : Step p0 f s s' :=
  h.mono nofun nofun (fun _ _ _ => nofun) nofun nofun nofun nofun

theorem Step.trans (h : Step p0 f s s') (h' : Step p0 f s' s'') : Step p0 f s s'' where
  inv := h'.inv
  keeps := h.keeps.trans h'.keeps
  winds := h.winds.trans h'.winds h.keeps.colds
  log := h.log.trans h'.log
  empty i hi := h.empty i (h'.empty i hi)
  begun i hf hi := by
    obtain ⟨hform, hpend | hpend⟩ := h.begun i hf hi
    · obtain ⟨hform', hpend'⟩ := h'.begun i hf hpend
      exact ⟨hform'.trans hform, hpend'⟩
    · exact ⟨(h'.keeps.forms i hpend.1).trans hform, .keep h.inv.coherent h'.keeps hpend⟩
  new i hf hi := by
    obtain hempty | hdone := h.new i hf hi
    · exact h'.new i hf hempty
    · exact .inr (h'.keeps.done h.inv.coherent hdone)
  methods m := (h.methods m).trans (h'.methods m) h'.keeps
  functions d := (h.functions d).trans (h'.functions d) h'.keeps
  entries m d hd hf := (h'.entries m d (by rwa [h.keeps.alike.modules]) hf).trans
    (h.entries m d hd hf)
  applied l v hf hv hi hn hk := by
    by_cases hmid : s'.program.VarKnown v
    · exact h'.keeps.lambdaKnown (h.applied l v hf hv hi hn hmid)
    · exact h'.applied l v hf (by rwa [h.keeps.alike.lambdaParams])
        (by rwa [h.keeps.alike.init]) hmid hk
  shielded hc r hr hx := by
    have he := h.shielded (hc.of_suffix h'.log) r hr hx
    exact (h'.shielded hc r (by rwa [he]) (by rwa [he])).trans he
  untouched hc hu r hr hx l hl hf v hv hi := by
    have he := h.shielded (hc.of_suffix h'.log) r hr hx
    have hslot := h'.untouched hc hu r (by rwa [he]) (by rwa [he]) l (by rwa [he]) hf v
      (by rwa [h.keeps.alike.lambdaParams]) (by rwa [h.keeps.alike.init])
    exact hslot.trans (h.untouched (hc.of_suffix h'.log) (hu.of_suffix h'.log) r hr hx l
      hl hf v hv hi)
  firm c hc hother := by
    have hfirm := h.firm c hc hother
    refine hfirm.trans (h'.firm c ?_ fun x hx he => hother x hx (hfirm.alone x he))
    rwa [hfirm.signature]
  stays := h.stays.trans h'.stays

theorem Step.unsigned {cold : ColdId} (h : Step p0 { colds := [cold] } s s')
    (hcold : (s.program.colds.lookup cold).signature = none) : Step p0 {} s s' := by
  refine { h with
    firm := fun c hc _ => h.firm c hc (List.forall_mem_singleton.2 fun he => ?_)
    stays := { h.stays with } }
  rw [ColdTable.lookup, ← he] at hc
  exact hc hcold

theorem Step.signatures (h : Step p0 f s s') (hf : f.colds = []) (c : ColdId) (t : TypeId)
    (ht : (s.program.colds.lookup c).signature = some t) :
    (s'.program.colds.lookup c).signature = some t :=
  (h.firm c (by simp [ht]) (by simp [hf])).signature.trans ht

end Typing

end ClassLang

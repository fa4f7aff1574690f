import ClassLang.Proofs.Rests
import ClassLang.Proofs.Typing.Dispatch
import ClassLang.Proofs.Typing.Replay
import ClassLang.Proofs.Typing.Signatures

namespace ClassLang.Typing

open List Program

variable {p0 p : Program} {c : Context} {e : Engine} {n : Nat} {loc : Location} {t : TypeId}
  {m : MethodId}

section Lookups

variable {α : Type}

theorem editing_rests {m : Edit α} {a : α} (h : p.Replays m a) (loc : Location) :
    Rests c p (editing loc m) a := by
  rintro s rfl
  refine ⟨s, ?_, rfl⟩
  unfold editing
  rw [show m s.program = .ok a s.program from h]

theorem intern_rests {x : Ty} (ht : p.types.Valid t) (hget : p.types.get t = x) :
    Rests c p (intern x) t := by
  have hagain : p.types.intern x = (t, p.types) := Pool.intern_eq ht hget
  unfold intern onTypes
  refine Rests.onProgram ?_
  dsimp only
  rw [hagain]

theorem signatureOf_rests {params : List TypeId} {result : TypeId}
    (hget : p.types.get t = .function params result) (what : Broken) :
    Rests c p (signatureOf t what loc) (params, result) := by
  refine .program ?_
  rw [TypeTable.signature?, hget]
  exact .pure _

theorem find_rests {i : NodeId} (hi : p.slot i = .fixed t) (n : Nat) :
    Rests c p ((engine n).find i) t := by
  have hslot : (p.nodes.get i).slot = .fixed t := hi
  cases n with
  | zero =>
    refine .program ?_
    dsimp only
    rw [hslot]
    exact .pure t
  | succ n =>
    show Rests c p (find (engine n) i) t
    refine .program ?_
    dsimp only
    rw [hslot]
    exact .pure t

theorem varType_rests {v : VarId} (hv : (p.vars.get v).slot = .fixed t) :
    Rests c p (varType e v loc) t := by
  refine .program ?_
  dsimp only
  rw [hv]
  exact .pure t

theorem methodType_rests (hm : (p.methods.get m).slot = .fixed t) :
    Rests c p (methodType e m loc) t := by
  refine .program ?_
  dsimp only
  rw [hm]
  exact .pure t

theorem functionType_rests {d : FunctionId} (hd : (p.functions.get d).slot = .fixed t) :
    Rests c p (functionType e d loc) t := by
  refine .program ?_
  dsimp only
  rw [hd]
  exact .pure t

/-- The class applied to its own parameters is in the table. -/
theorem within_rests {m : Check α} {a : α} {owner : Option ClassId}
    (hthis : ∀ d ∈ owner, ∃ i, p.IsThis d i) (h : ∀ c, Rests c p m a) :
    Rests c p (within owner m) a := by
  cases owner with
  | none => exact (Rests.pure none).bind (.withReader (h _))
  | some d =>
    obtain ⟨i, hi⟩ := hthis d rfl
    have hinst : Rests c p (onProgram (·.thisInst d) : Check InstId) i := .onProgram hi.thisInst
    exact Rests.bind hinst.map (.withReader (h _))

end Lookups

section Bodies

/-- What was weakened for a place is stored there as it is. -/
theorem coerce_rests {b : NodeId} (hp : p.Tables) (h : p.Delivers b t) :
    Rests c p (coerce (engine n) b t) b := by
  obtain ⟨a, ha, henters⟩ := h
  have hassign (loc : Location) : Rests c p (assign (engine n) a t loc) .direct :=
    fun s hs => ⟨s, henters.stows hp _ _ _ s hs, hs⟩
  have hloc : Rests c p (locOf b) (p.loc b) := .program (.pure _)
  exact (find_rests ha n).bind (hloc.bind ((hassign _).bind (.pure b)))

theorem checkBody_rests {b : NodeId} (hp : p.Tables) (h : Settled p t b) :
    Rests c p (checkBody (engine n) b t loc) b := by
  obtain ⟨params, result, hget, ⟨u, hu⟩, hresult⟩ := h
  refine (signatureOf_rests hget _).bind ((find_rests hu n).bind ?_)
  split
  · exact .pure b
  · rename_i hvoid
    exact coerce_rests hp (hresult.resolve_left hvoid)

theorem checkMethod_rests (hp : p.Tables)
    (h : BodySettled p (p.methods.get m).slot (p.methods.get m).body) :
    Rests c p (checkMethod (engine n) m) () := by
  obtain ⟨t, ht, hsettled⟩ := h
  refine .program ((methodType_rests ht).bind (.program ?_))
  cases hbody : (p.methods.get m).body with
  | none => exact .pure ()
  | some b =>
    refine (checkBody_rests hp (hsettled b hbody)).bind (.edit ?_)
    rw [Program.modifyMethod, Arena.modify_eq_self]
    rw [← hbody]

theorem checkClass_rests {d : ClassId} (hp : p.Tidy) (ha : p0.Alike p) (h : ClassSettled p0 p d) :
    Rests c p (checkClass (engine n) d) () := by
  refine within_rests (fun x hx => Option.some.inj hx ▸ h.this) fun c =>
    .program (.bind (.forM fun v hv => ?_) (.forM fun m hm => ?_))
  · rw [ha.fields] at hv
    obtain ⟨t, ht⟩ := h.fields v hv
    exact (varType_rests ht).discard
  · rw [ha.allMethods] at hm
    exact checkMethod_rests hp.tables (h.methods m hm)

theorem checkFunction_rests {d : FunctionId} {isEntry : Bool} (hp : p.Tidy)
    (h : FunctionSettled p0 p d) (hentry : isEntry = true ↔ p0.IsEntry d) :
    Rests c p (checkFunction (engine n) isEntry d) () := by
  refine within_rests nofun fun c => .program ?_
  dsimp only
  split
  · rename_i hyes
    cases hbody : (p.functions.get d).body with
    | none => exact .pure ()
    | some b =>
      obtain ⟨t, u, hslot, hget, hu⟩ := h.entry (hentry.1 hyes) b hbody
      refine (find_rests hu n).bind
        ((intern_rests (TypeTable.valid_of_get hget nofun) hget).bind (.write ?_))
      rw [Write.apply, Program.modifyFunction, Arena.modify_eq_self]
      rw [← hslot]
  · rename_i hno
    obtain ⟨t, ht, hsettled⟩ := h.declared (mt hentry.2 hno)
    refine (functionType_rests ht).bind ?_
    cases hbody : (p.functions.get d).body with
    | none => exact .pure ()
    | some b =>
      refine (checkBody_rests hp.tables (hsettled b hbody)).bind (.edit ?_)
      rw [Program.modifyFunction, Arena.modify_eq_self]
      rw [← hbody]

end Bodies

section Tables

variable {d : ClassId} {b : Base} {this : InstId} {table : List (MethodId × MethodId)}
  (hw : p0.Wired) (hu : p0.Under p)
include hw hu

theorem inherit_rests (built : List ClassId) {below : List ClassId → ClassId → Check (List ClassId)}
    (hflat : p0.Flat d)
    (hbelow : ∀ built, ∀ x ∈ p0.basesOf d, ∃ built', Rests c p (below built x.2) built') :
    ∃ bt : List ClassId × List (MethodId × MethodId),
      Rests c p ((p0.classes.get d).bases.foldlM (fun (built, table) b => do
      match b.inst.bind (← Typing.program).classOf? with
      | none => return (built, table)
      | some base =>
        let built ← below built base
        return (built, Assoc.merge table ((← Typing.program).classes.get base).dispatch))
          (built, [])) bt ∧
      bt.2 = p0.inheritedTable p (p0.classes.get d).bases := by
  refine Rests.foldlM (I := fun done (bt : List ClassId × List (MethodId × MethodId)) =>
    bt.2 = p0.inheritedTable p done) rfl fun done b rest bt hbs htable => ?_
  have hb : b ∈ (p0.classes.get d).bases := by simp [hbs]
  obtain ⟨x, hx⟩ := Option.isSome_iff_exists.1 (hflat.bound b hb)
  have hinst := (baseOf?_eq_some.1 hx).1
  have hclass : b.inst.bind p.classOf? = some x.2 := by
    rw [← classOf?_of_baseOf? hx, hinst, Option.bind_some, Option.bind_some,
      hu.classOf? (hw.bases d b hb _ hinst).valid]
  obtain ⟨built', hbuilt⟩ := hbelow bt.1 x (mem_filterMap.2 ⟨b, hb, hx⟩)
  refine ⟨(built', Assoc.merge bt.2 (p.classes.get x.2).dispatch), .program ?_, ?_⟩
  · rw [hclass]
    exact hbuilt.bind (.program (.pure _))
  · simp only [Program.inheritedTable, filterMap_append, filterMap_cons, filterMap_nil, hx,
      foldl_append, foldl_cons, foldl_nil] at htable ⊢
    rw [htable]

variable (h : p0.Typed p) (hp : p.Coherent)
include h hp

theorem checkOverride_rests {x : InstId × ClassId} {target overload : MethodId}
    (hx : p0.baseOf? b = some x) (hb : b ∈ (p0.classes.get d).bases)
    (htarget : (p0.methods.get overload).overrides = some target) (hthis : p.IsThis d this)
    (hreplaces : p0.Replaces p d b overload) :
    Rests c p (checkOverride e x.1 this target overload loc) () := by
  obtain ⟨target', x', path, this', declared, given, htarget', hx', hlookup, hthis', hslot, hgiven,
    _, hstripped⟩ := hreplaces
  cases htarget.symm.trans htarget'
  cases hx.symm.trans hx'
  cases (congrArg Prod.fst hthis.thisInst).symm.trans (congrArg Prod.fst hthis'.thisInst)
  obtain ⟨hinst, hcls⟩ := baseOf?_eq_some.1 hx
  have hclass : p.classOf? x.1 = some x.2 := by
    rw [hu.classOf? (hw.bases d b hb x.1 hinst).valid, Program.classOf?, hcls]
  obtain ⟨_, _, _, hname⟩ := path_of_lookup hw (.refl p0) hlookup
  have hnamed : (p.methods.get target).name = (p0.methods.get overload).name :=
    (congrArg Method.name (hu.alike.method target) :).trans hname
  have hstrip := stripPath_replays h.sound.tidy.canonical hstripped (hp.methodTypes _ _ hslot)
  refine .program ?_
  rw [hclass]
  refine .program (.program ?_)
  rw [hnamed, hu.alike.members, hlookup]
  refine (methodType_rests hslot).bind
    ((editing_rests hstrip loc).bind ((methodType_rests hgiven).bind ?_))
  rw [expectType, if_pos rfl]
  exact .pure ()

theorem addOverloads_rests (hb : b ∈ (p0.classes.get d).bases) (hx : (p0.baseOf? b).isSome)
    (hthis : p.IsThis d this) (hreplaces : ∀ m ∈ b.overloads, p0.Replaces p d b m) :
    Rests c p (addOverloads e this table b) (p0.withOverloads table b.overloads) := by
  obtain ⟨x, hx⟩ := Option.isSome_iff_exists.1 hx
  unfold addOverloads
  rw [(baseOf?_eq_some.1 hx).1]
  refine .foldl fun m hm table => .program ?_
  obtain ⟨target, htarget⟩ := Option.isSome_iff_exists.1 (hw.given d b hb m hm)
  have hhere : (p.methods.get m).overrides = some target :=
    (congrArg Method.overrides (hu.alike.method m) :).trans htarget
  dsimp only
  rw [hhere, htarget]
  exact (checkOverride_rests hw hu h hp hx hb htarget hthis (hreplaces m hm)).bind (.pure _)

theorem dispatchUpTo_rests (n : Nat) (built : List ClassId) (hd : p0.classes.Valid d) :
    ∃ built', Rests c p (dispatchUpTo e n built d) built' := by
  induction n generalizing built d with
  -- Where no steps are left for the bases, their tables are there all the same.
  | zero => exact ⟨built, .pure built⟩
  | succ n ih =>
    unfold dispatchUpTo
    split
    · exact ⟨built, .pure built⟩
    have hflat := hw.flat hd
    obtain ⟨_, hdispatched⟩ := h.dispatched
    have hdone := hdispatched d hd
    obtain ⟨i, hi⟩ := (h.classes d hd).this
    obtain ⟨⟨built', table⟩, hinherit, htable⟩ := inherit_rests (c := c) hw hu (d :: built) hflat
      fun built x hx => ih built (hw.valid_base hd hx)
    subst htable
    have hoverloads : Rests c p
        ((p0.classes.get d).bases.foldlM (addOverloads e i)
          (p0.inheritedTable p (p0.classes.get d).bases)) (p.classes.get d).dispatch := by
      rw [hdone.table, Program.overloadsOf, Program.withOverloads, foldl_flatMap]
      exact .foldl fun b hb table => addOverloads_rests hw hu h hp hb (hflat.bound b hb) hi
        (hdone.replaces b hb)
    have hbuilt : Rests c p (show Check (List ClassId) from do
        emit (.dispatchBuilt (p.className d) (p.classes.get d).dispatch.length)
        edit (·.modifyClass d fun decl => { decl with dispatch := (p.classes.get d).dispatch })
        pure built') built' := by
      refine (Rests.emit _).bind (Rests.bind (.edit ?_) (.pure built'))
      rw [Program.modifyClass, Arena.modify_eq_self rfl]
    have hinterface : (p.classes.get d).isInterface = (p0.classes.get d).isInterface :=
      (congrArg ClassDef.isInterface (hu.alike.cls d) :)
    refine ⟨built', .program ?_⟩
    dsimp only
    rw [hu.alike.bases]
    refine hinherit.bind (Rests.bind (.onProgram hi.thisInst) (hoverloads.bind (.program ?_)))
    rw [hinterface, h.sound.unimplemented hu.alike]
    split
    · rename_i hno
      rw [hdone.implemented.resolve_left (by simpa using hno)]
      exact hbuilt
    · exact hbuilt

theorem buildDispatch_rests : Rests c p (buildDispatch e) () := by
  have hall : ∃ built, Rests c p (p.classes.ids.foldlM (dispatchUpTo e (p.classes.size + 1)) [])
      built ∧ True := by
    refine Rests.foldlM (I := fun _ _ => True) trivial fun done d rest built hids _ => ?_
    have hd : p.classes.Valid d := Arena.mem_ids.1 (by simp [hids])
    obtain ⟨built', hbuilt⟩ := dispatchUpTo_rests hw hu h hp (p.classes.size + 1) built
      (Nat.lt_of_lt_of_eq hd hu.alike.classesSize)
    exact ⟨built', hbuilt, trivial⟩
  obtain ⟨built, hbuilt, _⟩ := hall
  exact .program (.program hbuilt.discard)

end Tables

theorem checkColds_rests (h : ColdsSigned p) : Rests c p checkColds () := by
  refine .program (.forM fun cold hcold => ?_)
  dsimp only
  split
  · rename_i site rest hnone hsites
    rw [h cold (Arena.mem_ids.1 hcold) hnone] at hsites
    cases hsites
  · exact .pure ()

theorem all_rests (hw : p0.Wired) (hu : p0.Under p) (h : p0.Typed p) (hp : p.Coherent)
    (hcolds : ColdsSigned p) : Rests c p all () := by
  have htidy := h.sound.tidy
  refine .program (.bind (.forM fun d hd => ?_)
    (.bind (buildDispatch_rests hw hu h hp)
      (.bind (.forM fun f hf => ?_) (.bind (checkColds_rests hcolds) (.program (.emit _))))))
  · exact checkClass_rests htidy hu.alike
      (h.classes d (Nat.lt_of_lt_of_eq (Arena.mem_ids.1 hd) hu.alike.classesSize))
  · refine checkFunction_rests htidy
      (h.functions f (hu.alike.functionsValid.1 (Arena.mem_ids.1 hf))) ?_
    rw [decide_eq_true_iff, hu.alike.modules]
    exact mem_entriesOf

/-- Once everything has a type, another check succeeds and changes nothing. -/
theorem check_check (h : p.Resolved) (hok : p.check.result = .ok ()) :
    p.check.program.check.result = .ok () ∧ p.check.program.check.program = p.check.program := by
  have htyped := typed_of_check h hok
  obtain ⟨s, hs, _, hstep, _, hcolds⟩ := check_ok h hok
  rw [hs] at hcolds
  have hinv := hstep.inv
  exact Rests.outcome (all_rests (c := {}) h.wired ⟨hs ▸ hinv.alike, htyped.sound.grows⟩ htyped
    (hs ▸ hinv.coherent) hcolds)

def weakResultText : String :=
  "class P { } interface I { get(P p) &P; } class C { +I { get(P p) &P { p } } } c = C; c.get(P)"

/-- The body is weakened once. -/
theorem check_check_weak_result :
    ((Program.ofText weakResultText).methods.get ⟨1⟩).body = some ⟨8⟩ ∧
      ((Program.ofText weakResultText).check.program.methods.get ⟨1⟩).body = some ⟨16⟩ ∧
      (Program.ofText weakResultText).check.program.form ⟨16⟩ = .toWeak ⟨8⟩ ∧
      ((Program.ofText weakResultText).check.program.classes.get ⟨2⟩).dispatch = [(⟨0⟩, ⟨1⟩)] ∧
      (Program.ofText weakResultText).check.program.check.result = .ok () ∧
      (Program.ofText weakResultText).check.program.check.program =
        (Program.ofText weakResultText).check.program := by
  have hrun : Program.resolves weakResultText = true ∧
      (Program.ofText weakResultText).check.result = .ok () ∧
      ((Program.ofText weakResultText).methods.get ⟨1⟩).body = some ⟨8⟩ ∧
      ((Program.ofText weakResultText).check.program.methods.get ⟨1⟩).body = some ⟨16⟩ ∧
      (Program.ofText weakResultText).check.program.form ⟨16⟩ = .toWeak ⟨8⟩ ∧
      ((Program.ofText weakResultText).check.program.classes.get ⟨2⟩).dispatch = [(⟨0⟩, ⟨1⟩)] := by
    decide +kernel
  obtain ⟨hresolves, hok, hbody, hbody', hform, hdispatch⟩ := hrun
  exact ⟨hbody, hbody', hform, hdispatch,
    check_check (Program.resolved_ofText weakResultText hresolves) hok⟩

end ClassLang.Typing

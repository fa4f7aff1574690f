import ClassLang.Proofs.Typing.Sound.Program
import ClassLang.Proofs.Typing.WriteOnce

namespace ClassLang

open Arena

def TypeTable.Temporary (T : TypeTable) (t : TypeId) : Prop :=
  (∃ i, T.get t = .ref .pin i) ∨ ∃ w depth i, T.get t = .optional w depth ∧ T.get w = .ref .pin i

theorem TypeTable.Temporary.grows {T U : TypeTable} {t : TypeId} (h : T.Temporary t)
    (hT : T.Grows U) : U.Temporary t := by
  have hget {t : TypeId} {x : Ty} (ht : T.get t = x) (hx : x ≠ default) : U.get t = x :=
    (hT.get_eq (valid_of_get ht hx)).trans ht
  rcases h with ⟨i, hi⟩ | ⟨w, depth, i, ht, hw⟩
  · exact .inl ⟨i, hget hi nofun⟩
  · exact .inr ⟨w, depth, i, hget ht nofun, hget hw nofun⟩

variable {p q : Program} {o : Option ClassId} {i x y : NodeId}

namespace Program

def Stands (p : Program) (o : Option ClassId) (i : NodeId) : Prop :=
  ∃ r ∈ p.bodyRoots, p.rootOwner r = o ∧ ∃ d ∈ p.rootParts r, p.Below d i

theorem exists_portion {r : Root} (hr : r ∈ p.bodyRoots) {d : NodeId} (hd : d ∈ p.rootParts r) :
    ∃ b, d ∈ p.portion r b := by
  cases r with
  | field v => exact ⟨false, hd⟩
  | method m => exact (List.mem_append.1 hd).elim (fun hd => ⟨true, hd⟩) fun hd => ⟨false, hd⟩
  | function f => exact (List.mem_append.1 hd).elim (fun hd => ⟨true, hd⟩) fun hd => ⟨false, hd⟩
  | param a => simp [bodyRoots] at hr
  | bases c => simp [bodyRoots] at hr

theorem Typed.region (h : p.Typed q) (hi : p.Stands o i) : ∃ b, p.atlas ⟨o, b⟩ i := by
  obtain ⟨r, hr, ho, d, hd, hbelow⟩ := hi
  obtain ⟨b, hd⟩ := exists_portion hr hd
  exact ⟨b, r, hr, ho, fun _ _ _ => h.contained, d, hd, hbelow⟩

/-- The value of `x` is handed over by `y`, which is `x` itself or a new node that weakens it. Only
the latter makes a weak reference of an owner or a pinned one. -/
def Hands (p q : Program) (x y : NodeId) : Prop :=
  p.Passed q x y ∧ ∀ t u kind a b, q.slot x = .fixed t → q.types.get t = .ref kind a →
    kind ≠ .weak → q.slot y = .fixed u → q.types.get u = .ref .weak b → q.form y = .toWeak x

theorem Passed.hands (h : p.Passed q x y) : p.Hands q x y := by
  refine ⟨h, fun t u kind a b hx ht hkind hy hu => ?_⟩
  rcases h with rfl | ⟨_, _, hform⟩
  · cases hx.symm.trans hy
    cases ht.symm.trans hu
    exact absurd rfl hkind
  · exact hform

end Program

namespace Typing

/-- A check fails for no reason but the text, if no jump leads out of the first value of a field; if
one does, it fails. -/
theorem check_blames_text (h : p.Resolved) :
    (p.Contained → ∀ e, p.check.result = .error e → ∀ what, e.cause ≠ .internal what) ∧
    (¬ p.Contained → ∃ e, p.check.result = .error e) := by
  refine ⟨fun hc e he what => not_internal_of_check h hc he what, fun hc => ?_⟩
  cases hr : p.check.result with
  | ok u => exact absurd (typed_of_check h hr).contained hc
  | error e => exact ⟨e, rfl⟩

def sumText : String := "class C { x = loop { break 1 }; } y = 1 + true"

theorem check_blames_text_sum :
    ∃ e, (Program.ofText sumText).check.result = .error e ∧ ∀ what, e.cause ≠ .internal what := by
  have hrun : Program.resolves sumText = true ∧ (Program.ofText sumText).check.result ≠ .ok () ∧
      (∀ c ∈ (Program.ofText sumText).classes.ids,
        ∀ f ∈ ((Program.ofText sumText).classes.get c).fields,
        ∀ d ∈ ((Program.ofText sumText).vars.get f).init.toList, d = ⟨1⟩) ∧
      (Program.ofText sumText).form ⟨1⟩ = .loop [⟨3⟩] ∧ (Program.ofText sumText).form ⟨3⟩ = .leave
      ⟨1⟩ (some ⟨2⟩) ∧ (Program.ofText sumText).form ⟨2⟩ = .int 1 := by
    decide +kernel
  have h := Program.resolved_ofText sumText hrun.1
  generalize Program.ofText sumText = p at h hrun ⊢
  obtain ⟨_, hfails, hfields, hloop, hleave, hone⟩ := hrun
  have hcontained : p.Contained := by
    intro c f hf d hd t hescapes
    obtain rfl := hfields c (Arena.mem_ids.2 (Program.valid_of_mem_fields hf)) f hf d
      (Option.mem_toList.2 hd)
    cases hescapes with
    | leave hform => cases hloop.symm.trans hform
    | inner hx hne hescapes =>
      rw [hloop] at hx hne
      obtain rfl := List.mem_singleton.1 hx
      cases hescapes with
      | leave hform =>
        cases hleave.symm.trans hform
        exact hne rfl rfl
      | inner hx _ hescapes =>
        rw [hleave] at hx
        obtain rfl := List.mem_singleton.1 hx
        cases hescapes with
        | leave hform => cases hone.symm.trans hform
        | inner hx _ _ =>
          rw [hone] at hx
          cases hx
  cases hresult : p.check.result with
  | ok u => exact absurd hresult hfails
  | error e => exact ⟨e, rfl, (check_blames_text h).1 hcontained e hresult⟩

def escapeText : String := "class C { x = { return 1; }; }"

theorem check_blames_text_escape :
    (Program.ofText escapeText).Resolved ∧
      (Program.ofText escapeText).check.result =
        .error ⟨.internal .leaveOutsideTarget, ⟨some ⟨0⟩, ⟨16, 24⟩⟩⟩ := by
  have hrun : Program.resolves escapeText = true ∧ (Program.ofText escapeText).check.result =
      .error ⟨.internal .leaveOutsideTarget, ⟨some ⟨0⟩, ⟨16, 24⟩⟩⟩ := by decide +kernel
  exact ⟨Program.resolved_ofText escapeText hrun.1, hrun.2⟩

/-- At no point of a check is a pinned reference, or one under some levels of absence, the type of a
field or of what an array holds; the types of that point are `T`. -/
theorem check_storable (h : p.Resolved) {T : TypeTable} (hT : T.Grows p.check.program.types) :
    (∀ t u, T.get t = .array u → ¬ T.Temporary u) ∧
    ∀ ws, ws <:+ p.check.writes → ∀ v c t, (p.vars.get v).role = .field c →
      (p.marks.replay ws).vars.get v = .fixed t → ¬ T.Temporary t := by
  have hlasting := lasting_of_check h
  have hnot {t : TypeId} (ht : TypeTable.isTemporary p.check.program.types t = false)
    (htemp : T.Temporary t) : False :=
    nomatch ht.symm.trans (TypeTable.isTemporary_iff.2 (htemp.grows hT))
  refine ⟨fun t u ht => hnot (hlasting.neat.lasting t u ?_), fun ws hws v c t hv ht =>
    hnot (hlasting.fields v c t hv ?_)⟩
  · exact (hT.get_eq (TypeTable.valid_of_get ht nofun)).trans ht
  · obtain ⟨s, hprogram, hwrites, hlog⟩ := check_logged h
    rw [← hwrites] at hws
    have hkept := Marks.kept_of_throughout Marks.KeptBesides.refl
      (fun _ _ _ => Marks.KeptBesides.trans) hlog.keptBesides hws
    have hslot := hkept.vars v t (fun hu => nomatch hv.symm.trans hu.1) ht
    rw [hlog.replay, hprogram, Program.marks_var] at hslot
    exact hslot

def weakText : String := "class P { } class C { p = &P; a = [?P]; set(P x) { p := x; } }"

theorem check_storable_weak : ¬ (Program.ofText weakText).check.program.types.Temporary ⟨8⟩ ∧
    ¬ (Program.ofText weakText).check.program.types.Temporary ⟨7⟩ := by
  have hrun : Program.resolves weakText = true ∧ (Program.ofText weakText).check.program.types.get
      ⟨9⟩ = .array ⟨8⟩ ∧ ((Program.ofText weakText).vars.get ⟨0⟩).role = .field ⟨1⟩ ∧
      ((Program.ofText weakText).marks.replay (Program.ofText weakText).check.writes).vars.get
      ⟨0⟩ = .fixed ⟨7⟩ := by
    decide +kernel
  have h := Program.resolved_ofText weakText hrun.1
  generalize Program.ofText weakText = p at h hrun ⊢
  obtain ⟨_, harray, hrole, hslot⟩ := hrun
  obtain ⟨harrays, hfields⟩ := check_storable h (.refl _)
  exact ⟨harrays ⟨9⟩ ⟨8⟩ harray, hfields _ (List.suffix_refl _) ⟨0⟩ ⟨1⟩ ⟨7⟩ hrole hslot⟩

end Typing

namespace Program

def typeParts : Form → List NodeId
  | .noneOf i | .cast _ i _ => [i]
  | .classRef _ _ args _ => args
  | _ => []

/-- All that is written as a type is in `S`, as one can tell from the declarations and the nodes one
by one. -/
def TypesIn (p : Program) (S : List NodeId) : Prop :=
  (∀ v ∈ p.vars.ids, (p.vars.get v).role = .param → ∀ i ∈ (p.vars.get v).init.toList, i ∈ S) ∧
    (∀ m ∈ p.methods.ids, ∀ i ∈ (p.methods.get m).result.toList, i ∈ S) ∧
    (∀ f ∈ p.functions.ids, ∀ i ∈ (p.functions.get f).result.toList, i ∈ S) ∧
    ∀ j ∈ p.nodes.ids, (∀ i ∈ typeParts (p.form j), i ∈ S) ∧
    (j ∈ S → ∀ i ∈ (p.form j).children, i ∈ S)

instance (p : Program) (S : List NodeId) : Decidable (p.TypesIn S) :=
  inferInstanceAs (Decidable (_ ∧ _))

theorem TypesIn.mem {S : List NodeId} (h : p.TypesIn S) (hi : p.AsType i) : i ∈ S := by
  obtain ⟨hvars, hmethods, hfunctions, hnodes⟩ := h
  have hnode {i j : NodeId} (hi : i ∈ typeParts (p.form j)) : i ∈ S := by
    refine (hnodes j (mem_ids.2 (valid_of_get_ne fun he => ?_))).1 i hi
    rw [form, he] at hi
    cases hi
  induction hi with
  | @param v i hrole hinit =>
    refine hvars v (mem_ids.2 (valid_of_get_ne fun he => ?_)) hrole i (Option.mem_toList.2 hinit)
    rw [he] at hinit
    cases hinit
  | @methodResult m i hresult =>
    refine hmethods m (mem_ids.2 (valid_of_get_ne fun he => ?_)) i (Option.mem_toList.2 hresult)
    rw [he] at hresult
    cases hresult
  | @functionResult f i hresult =>
    refine hfunctions f (mem_ids.2 (valid_of_get_ne fun he => ?_)) i (Option.mem_toList.2 hresult)
    rw [he] at hresult
    cases hresult
  | noneOf hform => exact hnode (by rw [hform]; exact List.mem_singleton_self _)
  | target hform => exact hnode (by rw [hform]; exact List.mem_singleton_self _)
  | arg hform hi => exact hnode (by rw [hform]; exact hi)
  | @part i j _ hi ih =>
    refine (hnodes j (mem_ids.2 (valid_of_get_ne fun he => ?_))).2 ih i hi
    rw [form, he] at hi
    cases hi

end Program

namespace Typing

/-- The arguments of every instance that is made derive from the bounds of the parameters they stand
for. -/
theorem check_bounds (h : p.Resolved) (hok : p.check.result = .ok ()) (hi : p.Stands o i)
    (hknown : p.check.program.Known i) (hvalue : ¬ p.AsType i) {name : NameId} {c : ClassId}
    {args : List NodeId} {x : InstId}
    (hform : p.form i = .classRef name (some (.cls c)) args (some x)) :
    p.check.program.InBounds c x := by
  have htyped := typed_of_check h hok
  obtain ⟨b, hg⟩ := htyped.region hi
  exact (htyped.sound.finished _ i hg hknown).bounded hvalue name c args x hform

def boundText : String :=
  "class Node { n = 0; } class Tree(T: Node) { item = ?T; } class Leaf { +Node } t = Tree(Leaf)"

theorem check_bounds_derived : (Program.ofText boundText).check.program.InBounds ⟨1⟩ ⟨3⟩ := by
  have hrun : Program.resolves boundText = true ∧ (Program.ofText boundText).check.result = .ok () ∧
      .function ⟨0⟩ ∈ (Program.ofText boundText).bodyRoots ∧
      ⟨0⟩ ∈ (Program.ofText boundText).rootParts (.function ⟨0⟩) ∧
      ⟨9⟩ ∈ (Program.ofText boundText).inner ((Program.ofText boundText).form ⟨0⟩) ∧
      ⟨8⟩ ∈ (Program.ofText boundText).inner ((Program.ofText boundText).form ⟨9⟩) ∧
      (Program.ofText boundText).TypesIn [⟨3⟩, ⟨7⟩] ∧ (Program.ofText boundText).check.program.slot
      ⟨8⟩ = .fixed ⟨9⟩ ∧ (Program.ofText boundText).form ⟨8⟩ = .classRef ⟨8⟩ (some (.cls ⟨1⟩)) [⟨7⟩]
      (some ⟨3⟩) := by
    decide +kernel
  have h := Program.resolved_ofText boundText hrun.1
  generalize Program.ofText boundText = p at h hrun ⊢
  obtain ⟨_, hok, hroot, hbody, hlocal, hvalue, htypes, hslot, hform⟩ := hrun
  have hstands : p.Stands none ⟨8⟩ :=
    ⟨_, hroot, rfl, ⟨0⟩, hbody, .head hlocal (.head hvalue (.refl _))⟩
  exact check_bounds h hok hstands ⟨_, hslot⟩ (fun has => by simpa using htypes.mem has) hform

def unboundText : String :=
  "class Node { n = 0; } class Other { } class Tree(T: Node) { get(T x) int { x.n } } " ++
    "class D { +Tree(Other) } d = D; d.get(Other)"

theorem check_bounds_base :
    (Program.ofText unboundText).Resolved ∧ (Program.ofText unboundText).check.result = .ok () ∧
      ⟨⟨9⟩, some ⟨2⟩, []⟩ ∈ ((Program.ofText unboundText).check.program.classes.get ⟨3⟩).bases ∧
      ((Program.ofText unboundText).check.program.insts.get ⟨2⟩).target = .cls ⟨2⟩ ∧
      ¬ (Program.ofText unboundText).check.program.InBounds ⟨2⟩ ⟨2⟩ := by
  have hrun : Program.resolves unboundText = true ∧ (Program.ofText unboundText).check.result = .ok
      () ∧ ⟨⟨9⟩, some ⟨2⟩, []⟩ ∈ ((Program.ofText unboundText).check.program.classes.get
        ⟨3⟩).bases ∧ ((Program.ofText unboundText).check.program.insts.get ⟨2⟩).target = .cls ⟨2⟩ ∧
      (⟨0⟩, ⟨1⟩) ∈ ((Program.ofText unboundText).check.program.classes.get ⟨2⟩).params.zip
      ((Program.ofText unboundText).check.program.insts.get ⟨2⟩).args ∧
      ((Program.ofText unboundText).check.program.params.get ⟨0⟩).bound = some ⟨0⟩ ∧
      (Program.upcast ⟨1⟩ ⟨0⟩).run' (Program.ofText unboundText).check.program = some none := by
    decide +kernel
  have h := Program.resolved_ofText unboundText hrun.1
  generalize Program.ofText unboundText = p at h hrun ⊢
  obtain ⟨_, hok, hbase, htarget, harg, hbound, hupcast⟩ := hrun
  refine ⟨h, hok, hbase, htarget, fun ⟨_, hin⟩ => ?_⟩
  obtain ⟨z, hz⟩ := hin (⟨0⟩, ⟨1⟩) harg ⟨0⟩ hbound
  obtain ⟨_, hup⟩ := ok_of_run' hupcast
  cases hup.symm.trans (hz _ (.refl _))

/-- What a node stores or hands over fits where it goes, and only nodes that weaken a value make a
weak reference of it. -/
theorem check_ownership (h : p.Resolved) (hok : p.check.result = .ok ()) (hi : p.Stands o i)
    (hknown : p.check.program.Known i) :
    p.check.program.Stored o (p.check.program.form i) ∧
    List.Forall₂ (p.Hands p.check.program) (p.form i).given (p.check.program.form i).given := by
  have htyped := typed_of_check h hok
  obtain ⟨b, hg⟩ := htyped.region hi
  have hfinished := htyped.sound.finished _ i hg hknown
  exact ⟨hfinished.stored, hfinished.given.imp fun _ _ hpassed => hpassed.hands⟩

theorem check_ownership_weak : (Program.ofText weakText).check.program.form ⟨11⟩ = .toWeak ⟨9⟩ := by
  have hrun : Program.resolves weakText = true ∧ (Program.ofText weakText).check.result = .ok () ∧
      .method ⟨0⟩ ∈ (Program.ofText weakText).bodyRoots ∧ (Program.ofText weakText).rootOwner
      (.method ⟨0⟩) = some ⟨1⟩ ∧ ⟨7⟩ ∈ (Program.ofText weakText).rootParts (.method ⟨0⟩) ∧
      ⟨10⟩ ∈ (Program.ofText weakText).inner ((Program.ofText weakText).form ⟨7⟩) ∧
      (Program.ofText weakText).check.program.slot ⟨10⟩ = .fixed ⟨2⟩ ∧
      ((Program.ofText weakText).form ⟨10⟩).given = [⟨9⟩] ∧
      ((Program.ofText weakText).check.program.form ⟨10⟩).given = [⟨11⟩] ∧
      (Program.ofText weakText).check.program.slot ⟨9⟩ = .fixed ⟨10⟩ ∧
      (Program.ofText weakText).check.program.types.get ⟨10⟩ = .ref .pin ⟨0⟩ ∧
      (Program.ofText weakText).check.program.slot ⟨11⟩ = .fixed ⟨7⟩ ∧
      (Program.ofText weakText).check.program.types.get ⟨7⟩ = .ref .weak ⟨0⟩ := by
    decide +kernel
  have h := Program.resolved_ofText weakText hrun.1
  generalize Program.ofText weakText = p at h hrun ⊢
  obtain ⟨_, hok, hroot, howner, hbody, hset, hslot, hgiven, hgiven', hvalue, hpin, hweak, htype⟩ :=
    hrun
  have hhands := (check_ownership h hok ⟨_, hroot, howner, ⟨7⟩, hbody, .head hset (.refl _)⟩
    ⟨_, hslot⟩).2
  rw [hgiven, hgiven'] at hhands
  obtain ⟨⟨_, hto⟩, _⟩ := List.forall₂_cons.1 hhands
  exact hto _ _ _ _ _ hvalue hpin nofun hweak htype

def overlookedText : String :=
  "class P {} class C { p = P; f = (a) { true ? f : (b) { p := p; 1 }; 1 }; } c = C; c.f(1)"

/-- The field holds an owner, and what it is set to has no type. -/
theorem check_ownership_overlooked :
    (Program.ofText overlookedText).Resolved ∧
      (Program.ofText overlookedText).check.result = .ok () ∧
      (Program.ofText overlookedText).Stands (some ⟨1⟩) ⟨9⟩ ∧
      (∃ name, (Program.ofText overlookedText).check.program.form ⟨9⟩ =
        .setField none name (some ⟨0⟩) ⟨8⟩) ∧
      ((Program.ofText overlookedText).check.program.vars.get ⟨0⟩).slot = .fixed ⟨6⟩ ∧
      (Program.ofText overlookedText).check.program.types.get ⟨6⟩ = .ref .own ⟨0⟩ ∧
      (Program.ofText overlookedText).check.program.slot ⟨8⟩ = .empty := by
  have hrun : Program.resolves overlookedText = true ∧
      (Program.ofText overlookedText).check.result = .ok () ∧
      .field ⟨4⟩ ∈ (Program.ofText overlookedText).bodyRoots ∧
      (Program.ofText overlookedText).rootOwner (.field ⟨4⟩) = some ⟨1⟩ ∧
      ⟨14⟩ ∈ (Program.ofText overlookedText).rootParts (.field ⟨4⟩) ∧
      ⟨2⟩ ∈ (Program.ofText overlookedText).inner ((Program.ofText overlookedText).form ⟨14⟩) ∧
      ⟨12⟩ ∈ (Program.ofText overlookedText).inner ((Program.ofText overlookedText).form ⟨2⟩) ∧
      ⟨11⟩ ∈ (Program.ofText overlookedText).inner ((Program.ofText overlookedText).form ⟨12⟩) ∧
      ⟨6⟩ ∈ (Program.ofText overlookedText).inner ((Program.ofText overlookedText).form ⟨11⟩) ∧
      ⟨9⟩ ∈ (Program.ofText overlookedText).inner ((Program.ofText overlookedText).form ⟨6⟩) ∧
      (Program.ofText overlookedText).check.program.form ⟨9⟩ = .setField none ⟨4⟩ (some ⟨0⟩) ⟨8⟩ ∧
      ((Program.ofText overlookedText).check.program.vars.get ⟨0⟩).slot = .fixed ⟨6⟩ ∧
      (Program.ofText overlookedText).check.program.types.get ⟨6⟩ = .ref .own ⟨0⟩ ∧
      (Program.ofText overlookedText).check.program.slot ⟨8⟩ = .empty := by
    decide +kernel
  have h := Program.resolved_ofText overlookedText hrun.1
  generalize Program.ofText overlookedText = p at h hrun ⊢
  obtain ⟨_, hok, hroot, howner, hvalue, hbody, helse, hinner, hblock, hset, hform, hslot, hown,
    hempty⟩ := hrun
  refine ⟨h, hok, ⟨_, hroot, howner, ⟨14⟩, hvalue, ?_⟩, ⟨_, hform⟩, hslot, hown, hempty⟩
  exact .head hbody (.head helse (.head hinner (.head hblock (.head hset (.refl _)))))

end Typing

end ClassLang

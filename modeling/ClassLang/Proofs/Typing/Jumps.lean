import ClassLang.Proofs.Typing.Coverage

namespace ClassLang

open List

structure Jump where
  type : TypeId
  loc : Location

namespace Program

variable {p0 p : Program} {G : Atlas} {i j : NodeId} {t u : TypeId} {x : Option NodeId}

theorem Brings.unique (h : p.Brings x t) (h' : p.Brings x u) : t = u := by
  cases x with
  | none => exact Eq.trans h (Eq.symm h')
  | some r => exact Slot.fixed.inj (Eq.trans (Eq.symm h) h')

section

variable (h : p0.Sound G p) (hi : p.Known i)
include h hi

theorem Sound.region (hvalid : p0.nodes.Valid i) : ∃ g, G g i := by
  by_contra hnone
  obtain ⟨t, ht⟩ := hi
  cases (h.quiet i hvalid fun g hg => hnone ⟨g, hg⟩).symm.trans ht

/-- A jump, block or loop that has a type was one before. -/
theorem Sound.form_of_known (hre : Typing.isReform (p.form i) = false)
    (hweak : ∀ x, p.form i ≠ .toWeak x) : ∃ g, G g i ∧ p0.form i = p.form i := by
  obtain ⟨g, hg⟩ := h.region hi
    ((h.wraps i (valid_of_known hi)).resolve_right fun ⟨x, _, hx⟩ => hweak x hx)
  refine ⟨g, hg, ?_⟩
  cases h.forms g i hg with
  | same hsame => exact hsame.symm
  | other _ hre' _ _ =>
    rw [hre] at hre'
    cases hre'

end

/-- A loop without a value accepts nothing that has one. -/
theorem Allows.noReturn (h : p.Allows i TypeId.noReturn t) (hp : p.Tables) :
    t = TypeId.noReturn := by
  rcases h with h | h | ⟨h, _⟩ | ⟨want, _, x, _, h, _⟩
  · exact h
  · exact h
  · cases h
  · rw [hp.types.get_basic (t := TypeId.noReturn) (by decide)] at h
    cases h

end Program

namespace Typing

open Program

variable {p : Program} {c : Context} {s : PassState} {target : NodeId} {t u : TypeId}
  {loc : Location} {body : List NodeId}

/-- A jump takes along what its target accepts, and a block ends in what it accepts. A loop has no
value exactly if no jump takes one out of it. -/
theorem check_leaves (h : p.Resolved) (hok : p.check.result = .ok ()) :
    (∀ i target result, p.check.program.Known i → p.check.program.form i = .leave target result →
      p.check.program.Leaves target result) ∧
    (∀ i body u, p.check.program.slot i = .fixed u → p.check.program.form i = .block body →
      ∃ t, p.check.program.Brings body.getLast? t ∧ p.check.program.Allows i u t) ∧
    ∀ i body u, p.check.program.slot i = .fixed u → p.check.program.form i = .loop body →
      (u = TypeId.noReturn ↔
        ∀ j result, p.check.program.Known j → p.check.program.form j = .leave i result →
          p.check.program.Brings result TypeId.noReturn) := by
  obtain ⟨hcoherent, _, hdone⟩ := check_complete h hok
  obtain ⟨s, hprogram, _, hstep, _⟩ := check_ok h hok
  have hsound := (typed_of_check h hok).sound
  have hleaves (i target : NodeId) (result : Option NodeId) (hi : p.check.program.Known i)
      (hform : p.check.program.form i = .leave target result) :
      p.check.program.Leaves target result := by
    obtain ⟨g, hg, hsame⟩ := hsound.form_of_known hi (by rw [hform]; rfl) (by rw [hform]; nofun)
    exact (hsound.finished g i hg hi).left target result (hsame.trans hform)
  refine ⟨hleaves, fun i body u hu hform => ?_, fun i body u hu hform => ⟨?_, fun hall => ?_⟩⟩
  · obtain ⟨t, ht, _, _, hends⟩ := hdone i ⟨u, hu⟩
    cases hu.symm.trans ht
    rwa [hform] at hends
  · rintro rfl j result hj hjump
    obtain ⟨t, v, ht, hv, hallows⟩ := hleaves j i result hj hjump
    cases hu.symm.trans hv
    exact hallows.noReturn hcoherent.tables ▸ ht
  · obtain ⟨g, hg, hsame⟩ :=
      hsound.form_of_known ⟨u, hu⟩ (by rw [hform]; rfl) (by rw [hform]; nofun)
    rcases (hsound.finished g i hg ⟨u, hu⟩).looped body (hsame.trans hform) u hu
      with hnone | ⟨j, result, hjump, hbegun, hbrings⟩
    · exact hnone
    -- The jump that gave the loop its type was begun, and by the end of the check nothing that was
    -- begun is left without a type.
    · have hj : p.check.program.Known j := by
        have hnew := hstep.new j nofun (h.raw.2.nodes j)
        rw [hprogram] at hnew
        obtain ⟨t, ht, _⟩ := hnew.resolve_left hbegun
        exact ⟨t, ht⟩
      obtain ⟨r, hr⟩ := hsound.region hj (Program.valid_of_form hjump nofun)
      refine hbrings.unique (hall j result hj ?_)
      cases hsound.forms r j hr with
      | same hsame => exact hsame.trans hjump
      | other hre _ _ _ =>
        rw [hjump] at hre
        cases hre

def searchText : String :=
  "class P { } class Q { +P } fn f(P p) P { loop { 1 < 2 ? break p; break Q } }"

theorem check_leaves_derived :
    (Program.ofText searchText).check.program.form ⟨13⟩ = .leave ⟨5⟩ (some ⟨12⟩) ∧
      (Program.ofText searchText).check.program.Leaves ⟨5⟩ (some ⟨12⟩) ∧
      (∃ t, (Program.ofText searchText).check.program.Brings (some ⟨5⟩) t ∧
        (Program.ofText searchText).check.program.Allows ⟨4⟩ ⟨7⟩ t) ∧
      ∃ j result, (Program.ofText searchText).check.program.Known j ∧
        (Program.ofText searchText).check.program.form j = .leave ⟨5⟩ result ∧
        ¬ (Program.ofText searchText).check.program.Brings result TypeId.noReturn := by
  have hrun : Program.resolves searchText = true ∧ (Program.ofText searchText).check.result = .ok
      () ∧ (Program.ofText searchText).check.program.slot ⟨13⟩ = .fixed TypeId.noReturn ∧
      (Program.ofText searchText).check.program.form ⟨13⟩ = .leave ⟨5⟩ (some ⟨12⟩) ∧
      (Program.ofText searchText).check.program.slot ⟨4⟩ = .fixed ⟨7⟩ ∧
      (Program.ofText searchText).check.program.form ⟨4⟩ = .block [⟨5⟩] ∧
      (Program.ofText searchText).check.program.slot ⟨5⟩ = .fixed ⟨7⟩ ∧
      (Program.ofText searchText).check.program.form ⟨5⟩ = .loop [⟨11⟩, ⟨13⟩] := by
    decide +kernel
  have h := Program.resolved_ofText searchText hrun.1
  generalize Program.ofText searchText = p at h hrun ⊢
  obtain ⟨_, hok, hjump, hleave, houter, hblock, hinner, hloop⟩ := hrun
  obtain ⟨hleaves, hends, hloops⟩ := check_leaves h hok
  refine ⟨hleave, hleaves _ _ _ ⟨_, hjump⟩ hleave, hends _ _ _ houter hblock, ?_⟩
  by_contra hnone
  cases (hloops _ _ _ hinner hloop).2 fun j result hj hform => by_contra fun hno =>
    hnone ⟨j, result, hj, hform, hno⟩

section Order

variable {xs ys : List Jump} {ts us : List TypeId}

def leaveAll (target : NodeId) (xs : List Jump) : Check Unit :=
  xs.forM fun x => leaveTo target x.type x.loc

def leftWith (target : NodeId) (xs : List Jump) (c : Context) (s : PassState) : Option Slot :=
  match leaveAll target xs c s with
  | .ok _ s' => some (s'.program.slot target)
  | .error _ _ => none

/-- What a loop gets for a type from values of the types `ts`: the first one decides, and those that
follow have its type or never return. -/
def loopSlot : List TypeId → Option Slot
  | [] => some .inProgress
  | t :: ts => if ∀ u ∈ ts, u = t ∨ u = TypeId.noReturn then some (.fixed t) else none

/-- The order does not count, unless what never returns comes first in one of two orders only. -/
theorem loopSlot_perm (h : ts ~ us)
    (hfirst : ts.head? = some TypeId.noReturn ↔ us.head? = some TypeId.noReturn) :
    loopSlot ts = loopSlot us := by
  cases ts with
  | nil => rw [nil_perm.1 h]
  | cons t ts =>
    cases us with
    | nil => cases perm_nil.1 h
    | cons u us =>
      by_cases htu : t = u
      · subst htu
        simp only [loopSlot, ((perm_cons t).1 h).mem_iff]
      -- Two different types that come first both have values, so there is no order in which all
      -- agree.
      · simp only [head?_cons, Option.some.injEq] at hfirst
        have ht : t ≠ TypeId.noReturn := fun ht => htu (ht.trans (hfirst.1 ht).symm)
        have hu : u ≠ TypeId.noReturn := fun hu => htu ((hfirst.2 hu).trans hu.symm)
        have hmem : u ∈ ts := (mem_cons.1 (h.mem_iff.2 mem_cons_self)).resolve_left (Ne.symm htu)
        have hmem' : t ∈ us := (mem_cons.1 (h.mem_iff.1 mem_cons_self)).resolve_left htu
        rw [loopSlot, if_neg fun hall => (hall u hmem).elim (Ne.symm htu) hu, loopSlot,
          if_neg fun hall => (hall t hmem').elim htu ht]

section Loops

variable (hloop : s.program.form target = .loop body)
include hloop

theorem accepts_loop (href : s.program.types.ref? u = none) :
    accepts target t u loc c s = .ok (decide (u = t ∨ u = TypeId.noReturn)) s := by
  unfold accepts
  by_cases hu : u = t ∨ u = TypeId.noReturn
  · rw [if_pos (hu.imp_left Eq.symm), decide_eq_true hu]
    rfl
  · rw [if_neg fun he => hu (he.imp_left Eq.symm), bind_program, hloop]
    dsimp only
    rw [Bool.not_true, Bool.and_false, if_neg Bool.false_ne_true, bind_ref?, bind_ref?, href,
      decide_eq_false hu]
    cases s.program.types.ref? t <;> rfl

theorem leaveTo_fixed (hslot : s.program.slot target = .fixed t)
    (href : s.program.types.ref? u = none) (loc : Location) :
    if u = t ∨ u = TypeId.noReturn then leaveTo target u loc c s = .ok () s else ∃ e,
      leaveTo target u loc c s = .error e s := by
  rw [leaveTo, bind_program, hslot]
  dsimp only
  rw [bind_of_ok (accepts_loop hloop href)]
  split
  · rename_i hu
    rw [decide_eq_true hu]
    rfl
  · rename_i hu
    rw [decide_eq_false hu]
    exact ⟨_, rfl⟩

/-- Once a loop has a type, it keeps it, and all that leaves it is measured by it. -/
theorem leaveAll_fixed (hslot : s.program.slot target = .fixed t)
    (href : ∀ x ∈ xs, s.program.types.ref? x.type = none) :
    if ∀ u ∈ xs.map Jump.type, u = t ∨ u = TypeId.noReturn then leaveAll target xs c s = .ok () s
      else ∃ e, leaveAll target xs c s = .error e s := by
  induction xs with
  | nil =>
    rw [if_pos (by simp)]
    rfl
  | cons x xs ih =>
    rw [forall_mem_cons] at href
    have hrun : leaveAll target (x :: xs) c s =
      (leaveTo target x.type x.loc >>= fun _ => leaveAll target xs) c s := rfl
    have hfirst := leaveTo_fixed (c := c) hloop hslot href.1 x.loc
    rw [hrun]
    by_cases hx : x.type = t ∨ x.type = TypeId.noReturn
    · rw [if_pos hx] at hfirst
      simp only [map_cons, forall_mem_cons, hx, true_and, bind_of_ok hfirst]
      exact ih href.2
    · rw [if_neg hx] at hfirst
      rw [if_neg fun h => hx (h x.type mem_cons_self)]
      obtain ⟨e, he⟩ := hfirst
      exact ⟨e, bind_of_error he⟩

variable (hslot : s.program.slot target = .inProgress)
include hslot

theorem leftWith_eq (href : ∀ x ∈ xs, s.program.types.ref? x.type = none) :
    leftWith target xs c s = loopSlot (xs.map Jump.type) := by
  cases xs with
  | nil => exact congrArg some hslot
  | cons x xs =>
    have hvalid : s.program.nodes.Valid target := Arena.valid_of_get_ne fun he => by
      rw [Program.slot, he] at hslot
      cases hslot
    have hfirst : leaveTo target x.type x.loc c s = .ok ()
        (s.after (.node target (.fixed x.type))) := by
      rw [leaveTo, bind_program, hslot]
      rfl
    have hfixed : (s.after (.node target (.fixed x.type))).program.slot target = .fixed x.type :=
      (slot_setSlot s.program target (.fixed x.type) target).trans (if_pos ⟨rfl, hvalid⟩)
    have hform : (s.after (.node target (.fixed x.type))).program.form target = .loop body :=
      (form_setSlot s.program target (.fixed x.type) target).trans hloop
    have hrest := leaveAll_fixed (c := c) hform hfixed (forall_mem_cons.1 href).2
    have hrun : leaveAll target (x :: xs) c s = leaveAll target xs c
      (s.after (.node target (.fixed x.type))) :=
      bind_of_ok (k := fun _ => leaveAll target xs) hfirst
    rw [leftWith, hrun, map_cons, loopSlot]
    split at hrest
    · rename_i hall
      rw [hrest, if_pos hall]
      exact congrArg some hfixed
    · rename_i hall
      obtain ⟨e, he⟩ := hrest
      rw [he, if_neg hall]

/-- Values that are no references leave a loop if they have the type of the first one or never
return. The order does not count, unless what never returns comes first in one of two orders only.
-/
theorem leftWith_perm (href : ∀ x ∈ xs, s.program.types.ref? x.type = none) (hperm : xs ~ ys) :
    leftWith target xs c s = loopSlot (xs.map Jump.type) ∧
    (((xs.map Jump.type).head? = some TypeId.noReturn ↔
        (ys.map Jump.type).head? = some TypeId.noReturn) →
      leftWith target xs c s = leftWith target ys c s) := by
  have hxs := leftWith_eq (c := c) hloop hslot href
  have hys := leftWith_eq (c := c) hloop hslot fun x hx => href x (hperm.mem_iff.2 hx)
  refine ⟨hxs, fun hfirst => ?_⟩
  rw [hxs, hys]
  exact loopSlot_perm (hperm.map Jump.type) hfirst

end Loops

def loopText : String := "loop { }"

def openLoop : PassState := { program := (Program.ofText loopText).setSlot ⟨1⟩ .inProgress }

theorem openLoop_open :
    openLoop.program.form ⟨1⟩ = .loop [] ∧ openLoop.program.slot ⟨1⟩ = .inProgress ∧
      openLoop.program.types.ref? TypeId.int = none ∧
      openLoop.program.types.ref? TypeId.noReturn = none := by
  have hrun : (Program.ofText loopText).form ⟨1⟩ = .loop [] ∧
      (Program.ofText loopText).types.ref? TypeId.int = none ∧
      (Program.ofText loopText).types.ref? TypeId.noReturn = none := by
    decide +kernel
  unfold openLoop
  generalize Program.ofText loopText = p at hrun ⊢
  obtain ⟨hloop, href⟩ := hrun
  exact ⟨(form_setSlot ..).trans hloop,
    (slot_setSlot ..).trans (if_pos ⟨rfl, valid_of_isTarget (by rw [hloop]; rfl)⟩), href⟩

theorem leftWith_perm_ints :
    leftWith ⟨1⟩ [⟨TypeId.int, default⟩, ⟨TypeId.noReturn, default⟩, ⟨TypeId.int, default⟩] {}
        openLoop =
      leftWith ⟨1⟩ [⟨TypeId.int, default⟩, ⟨TypeId.int, default⟩, ⟨TypeId.noReturn, default⟩] {}
        openLoop := by
  obtain ⟨hloop, hslot, hint, hnever⟩ := openLoop_open
  exact (leftWith_perm hloop hslot (by simp [hint, hnever]) (.cons _ (.swap _ _ _))).2 (by decide)

def neverFirstText : String := "fn f(int a) int { loop { a < 0 ? break return 1; break 5 } }"

def neverLastText : String := "fn f(int a) int { loop { a < 0 ? break 5; break return 1 } }"

/-- What never returns is taken behind a value, but not before one. -/
theorem leftWith_never :
    leftWith ⟨1⟩ [⟨TypeId.noReturn, default⟩, ⟨TypeId.int, default⟩] {} openLoop = none ∧
      leftWith ⟨1⟩ [⟨TypeId.int, default⟩, ⟨TypeId.noReturn, default⟩] {} openLoop =
        some (.fixed TypeId.int) ∧
      Program.resolves neverFirstText = true ∧
      (Program.ofText neverFirstText).check.result ≠ .ok () ∧
      Program.resolves neverLastText = true ∧
      (Program.ofText neverLastText).check.result = .ok () := by
  obtain ⟨hloop, hslot, hint, hnever⟩ := openLoop_open
  rw [leftWith_eq hloop hslot (by simp [hint, hnever]),
    leftWith_eq hloop hslot (by simp [hint, hnever])]
  decide +kernel

end Order

end Typing

end ClassLang

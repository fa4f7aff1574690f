import ClassLang.Proofs.Typing.Replace

namespace ClassLang.Program

open List

variable {α β : Type} {p : Program} {s : Substitution} {m : Edit α} {k : α → Edit β} {a : α} {b : β}
  {t u : TypeId} {j : InstId} {path : List InstId}

def Replays (p : Program) (m : Edit α) (a : α) : Prop := m p = .ok a p

namespace Replays

theorem pure (a : α) : Replays p (Pure.pure a) a := rfl

theorem get {f : Program → Edit α} (h : Replays p (f p) a) : Replays p (MonadState.get >>= f) a := h

theorem bind (h : Replays p m a) (hk : Replays p (k a) b) : Replays p (m >>= k) b := by
  unfold Replays at h
  show EStateM.bind m k p = _
  rw [EStateM.bind, h]
  exact hk

theorem mapM {f : α → Edit β} {xs : List α} {bs : List β} (hlen : xs.length = bs.length)
    (h : ∀ x ∈ xs.zip bs, Replays p (f x.1) x.2) : Replays p (xs.mapM f) bs := by
  induction xs generalizing bs with
  | nil =>
    cases bs with
    | nil => exact .pure []
    | cons => cases hlen
  | cons x xs ih =>
    cases bs with
    | nil => cases hlen
    | cons b bs =>
      rw [zip_cons_cons, forall_mem_cons] at h
      rw [mapM_cons]
      exact h.1.bind ((ih (Nat.succ.inj hlen) h.2).bind (.pure _))

end Replays

theorem internInst_replays {i : InstId} {inst : Inst} (hi : p.insts.Valid i)
    (hget : p.insts.get i = inst) : Replays p (internInst inst) i := by
  show EStateM.Result.ok (p.insts.intern inst).1 { p with insts := (p.insts.intern inst).2 } = _
  rw [Pool.intern_eq hi hget]

theorem internType_replays {x : Ty} (ht : p.types.Valid t) (hget : p.types.get t = x) :
    Replays p (internType x) t := by
  show EStateM.Result.ok (p.types.intern x).1 { p with types := (p.types.intern x).2 } = _
  rw [show p.types.intern x = _ from Pool.intern_eq ht hget]

section

variable (hp : p.Canonical)
include hp

/-- An instance whose parameters were replaced once is found, not made. -/
theorem Replaced.replays {i : InstId} {n : Nat} (h : p.Replaced s i j) (hn : i.index < n) :
    Replays p (s.instUpTo n i) j := by
  induction h generalizing n with
  | own _ hget howner harg =>
    obtain ⟨n, rfl⟩ := Nat.exists_eq_add_of_le' (Nat.lt_of_le_of_lt (Nat.zero_le _) hn)
    refine .get ?_
    dsimp only
    rw [hget]
    dsimp only
    rw [if_pos howner, harg]
    exact .pure _
  | other _ hget howner =>
    obtain ⟨n, rfl⟩ := Nat.exists_eq_add_of_le' (Nat.lt_of_le_of_lt (Nat.zero_le _) hn)
    refine .get ?_
    dsimp only
    rw [hget]
    dsimp only
    rw [if_neg howner]
    exact .pure _
  | @cls i j c args args' _ hget hj hget' hlen _ ih =>
    obtain ⟨n, rfl⟩ := Nat.exists_eq_add_of_le' (Nat.lt_of_le_of_lt (Nat.zero_le _) hn)
    refine .get ?_
    dsimp only
    rw [hget]
    refine Replays.bind (.mapM hlen fun x hx => ih x hx ?_) (internInst_replays hj hget')
    have hlt : x.1.index < i.index := hp.tables.insts i x.1 (by rw [hget]; exact (of_mem_zip hx).1)
    omega

theorem Replaced.inst {i : InstId} (h : p.Replaced s i j) : Replays p (s.inst i) j := by
  have hi : p.insts.Valid i := by cases h <;> assumption
  exact .get (h.replays hp hi)

/-- A type whose parameters were replaced once is found, not made; the induction is along its parts.
-/
theorem Retyped.replays {n : Nat} (h : p.Retyped s t u) (hn : t.index < n) :
    Replays p (s.typeUpTo n t) u := by
  induction h generalizing n with
  | @node t u ht hu hshape _ hinst ih =>
    obtain ⟨n, rfl⟩ := Nat.exists_eq_add_of_le' (Nat.lt_of_le_of_lt (Nat.zero_le _) hn)
    have hpart (x : TypeId × TypeId) (hx : x ∈ (p.types.get t).parts.zip (p.types.get u).parts) :
        Replays p (s.typeUpTo n x.1) x.2 := by
      have hlt := hp.tables.types.parts t x.1 (of_mem_zip hx).1
      exact ih x hx (by omega)
    have hfound {x : Ty} (hx : p.types.get u = x) : Replays p (internType x) u :=
      internType_replays hu hx
    have hcall {params params' : List TypeId} {result result' : TypeId}
        (make : List TypeId → TypeId → Ty) (hget : (p.types.get t).parts = params ++ [result])
        (hget' : (p.types.get u).parts = params' ++ [result'])
        (hlen : params.length = params'.length) (hx : p.types.get u = make params' result') :
        Replays p (do
          let params ← params.mapM (s.typeUpTo n)
          internType (make params (← s.typeUpTo n result))) u := by
      rw [hget, hget', zip_append hlen, forall_mem_append] at hpart
      exact .bind (.mapM hlen hpart.1) (.bind (hpart.2 (result, result') (by simp)) (hfound hx))
    refine .get ?_
    split
    · rename_i kind i hget
      obtain ⟨j, hget'⟩ := Ty.ref_of_skeleton hshape.symm hget
      exact .bind ((hinst i j (by rw [hget]; rfl) (by rw [hget']; rfl)).inst hp) (hfound hget')
    · rename_i i hget
      obtain ⟨j, hget'⟩ := Ty.classOf_of_skeleton hshape.symm hget
      exact .bind ((hinst i j (by rw [hget]; rfl) (by rw [hget']; rfl)).inst hp) (hfound hget')
    · rename_i w depth hget
      obtain ⟨v, hget'⟩ := Ty.optional_of_skeleton hshape.symm hget
      exact .bind (hpart (w, v) (by simp [hget, hget', Ty.parts])) (hfound hget')
    · rename_i w hget
      rw [hget] at hshape
      obtain ⟨v, hget'⟩ := Ty.array_of_skeleton hshape.symm
      exact .bind (hpart (w, v) (by simp [hget, hget', Ty.parts])) (hfound hget')
    · rename_i params result hget
      obtain ⟨params', result', hget', hlen⟩ := Ty.lambda_of_skeleton hshape.symm hget
      exact hcall .lambda (by rw [hget]; rfl) (by rw [hget']; rfl) hlen hget'
    · rename_i params result hget
      obtain ⟨params', result', hget', hlen⟩ := Ty.function_of_skeleton hshape.symm hget
      exact hcall .function (by rw [hget]; rfl) (by rw [hget']; rfl) hlen hget'
    · -- What is made of nothing else is the same type.
      rename_i href hclass hoptional harray hlambda hfunction
      obtain ⟨hparts, hnone⟩ := Ty.leaf href hclass hoptional harray hlambda hfunction
      have hparts' : (p.types.get u).parts = [] := by
        have hlen := Ty.length_parts hshape
        rw [hparts] at hlen
        exact eq_nil_of_length_eq_zero hlen.symm
      have hnone' : (p.types.get u).inst? = none := by
        have hsome := Ty.isSome_inst? hshape
        rw [hnone] at hsome
        exact Option.isSome_eq_false_iff.1 hsome.symm |> Option.isNone_iff_eq_none.1
      have hsame := Ty.eq_of_skeleton hshape (hparts.trans hparts'.symm) (hnone.trans hnone'.symm)
      rw [Pool.get_inj ht hu hsame]
      exact .pure u

theorem Stripped.replays {context : InstId} (h : p.Stripped context t u) (ht : p.types.Valid t) :
    Replays p (strip t context) u ∧ p.types.Valid u := by
  unfold Stripped at h
  unfold strip
  cases hs : p.substitution? context with
  | some s =>
    rw [hs] at h
    refine ⟨.get ?_, h.valid⟩
    rw [hs]
    exact .get (h.replays hp ht)
  | none =>
    rw [hs] at h
    subst h
    refine ⟨.get ?_, ht⟩
    rw [hs]
    exact .pure u

theorem StrippedAlong.replays (h : p.StrippedAlong path t u)
    (ht : p.types.Valid t) : Replays p (path.foldlM strip t) u ∧ p.types.Valid u := by
  induction path generalizing t with
  | nil =>
    cases h
    exact ⟨.pure u, ht⟩
  | cons i path ih =>
    obtain ⟨w, hw, hrest⟩ := h
    obtain ⟨hreplays, hvalid⟩ := hw.replays hp ht
    obtain ⟨hreplays', hvalid'⟩ := ih hrest hvalid
    rw [foldlM_cons]
    exact ⟨hreplays.bind hreplays', hvalid'⟩

/-- A type that was once seen over a path of bases is there. -/
theorem stripPath_replays {receiver : InstId} (h : p.StrippedAlong (path.reverse ++ [receiver]) t u)
    (ht : p.types.Valid t) : Replays p (stripPath t path receiver) u := by
  obtain ⟨w, hpath, u, hlast, rfl⟩ := h.of_append
  obtain ⟨hreplays, hw⟩ := hpath.replays hp ht
  exact hreplays.bind (hlast.replays hp hw).1

end

section This

variable {c : ClassId} {i : InstId}

theorem foldl_internParam_again {params : List ParamId} {args : List InstId} (done : List InstId)
    (h : Forall₂ (fun x a => p.insts.Valid a ∧ p.insts.get a = ⟨.param x, []⟩) params args) :
    params.foldl internParam (done, p.insts) = (done ++ args, p.insts) := by
  induction h generalizing done with
  | nil => simp
  | @cons x a params args ha _ ih =>
    rw [foldl_cons, internParam]
    dsimp only
    rw [Pool.intern_eq ha.1 ha.2, ih, append_assoc, singleton_append]

theorem IsThis.thisInst (h : p.IsThis c i) : p.thisInst c = (i, p) := by
  obtain ⟨hi, args, hget, hargs⟩ := h
  have hparams := foldl_internParam_again [] hargs
  rw [nil_append] at hparams
  show (let acc := (p.classes.get c).params.foldl internParam ([], p.insts)
    ((acc.2.intern ⟨.cls c, acc.1⟩).1, { p with insts := (acc.2.intern ⟨.cls c, acc.1⟩).2 })) = _
  rw [hparams]
  dsimp only
  rw [Pool.intern_eq hi hget]

end This

end ClassLang.Program

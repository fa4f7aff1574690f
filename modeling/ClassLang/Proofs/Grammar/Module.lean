import ClassLang.Proofs.Grammar.Declaration

namespace ClassLang

namespace Program

variable {p q : Program} {O : NodeId → Prop}

def Grown (p : Program) : Prop := ∃ O, p.Built O p

theorem Built.grown (h : p.Built O q) : q.Grown := ⟨O, .refl h.shaped h.untyped h.sown⟩

theorem Grown.on (h : p.Grown) (hq : ∀ O, p.Built O p → p.Built O q) : q.Grown := by
  obtain ⟨O, h⟩ := h
  exact (hq O h).grown

end Program

namespace Grammar

open Program

variable {O : NodeId → Prop} {c : Context} {p : Program}

theorem header_builds (hp : Place O c ⟨none, []⟩ p) : Leads c Grown p header fun _ _ => True :=
  (Builds.of_quiet hp.refl (.of_detached .header)).imp fun _ _ hq hQ => ⟨hq.grown, hQ⟩

/-- The statements of a module are in a block that is made first, so that they can leave it. -/
theorem moduleBody_builds (hp : Place O c ⟨none, []⟩ p) :
    Leads c Grown p moduleBody fun _ _ => True := by
  unfold moduleBody
  refine LeadsOr.bind (Builds.of_quiet hp.refl .peekSpan) fun start p₁ hp₁ _ => ?_
  refine LeadsOr.bind (target_builds hp₁ (.inl rfl)) fun i q hq hi => ?_
  have hq' := hq.open hi.2.1 hi.2.2.2
  have hplace : Place (fun t => O t ∨ t = i) { c with body := some i }
    (Zone.entering ⟨none, []⟩ i) q :=
    { shaped := hq.shaped
      untyped := hq.untyped
      sown := hq'.sown
      owner := hp.owner
      targets := List.forall_mem_singleton.2 hi.2.2.1
      loop := fun j hj => nomatch hp.loop j hj
      body := by
        rintro _ ⟨⟩
        exact List.mem_cons_self }
  refine LeadsOr.imp (S := p.Built fun t => O t ∨ t = i) (Builds.quiet .get fun s => ?_)
    fun _ _ hq hQ => ⟨hq.grown, hQ⟩
  extract_lets depth
  refine .call hq' (.withReader ((rules_good _).statements true _ _ _ hplace fun _ =>
    ⟨rfl, List.forall_mem_singleton.2 (.inr rfl)⟩)) fun stmts q₁ hq₁ h₁ hstmts => ?_
  split
  · exact .pure hq₁ trivial
  · refine .bind (finishNode_builds (z := ⟨none, []⟩) hq₁ hi hp₁.kept.nodes h₁.kept
      (.inl rfl) hstmts _) fun _ q₂ hq₂ hblock => .read ?_
    refine .call hq₂ (childName_builds (.refl hq₂.shaped hq₂.untyped hq₂.sown) _ _)
      fun name q₃ hq₃ h₃ _ => .quiet .get fun s => ?_
    extract_lets loc
    have hblock := (hblock.step h₃.kept).1
    have htext := hblock.mono hp₁.kept.nodes
    refine .bind (addFunction_builds hq₃ ⟨nofun, nofun, ?_⟩ rfl (by exact .single htext)
      fun t ht x hx hb => ?_) fun f q₄ hq₄ ⟨hfresh, hq, hf, hget⟩ => ?_
    · rintro _ ⟨⟩
      exact hblock.valid
    · obtain rfl := List.mem_singleton.1 hx
      rcases ht with ht | rfl
      · exact absurd (hp₁.sown.forest.aloof t ht).1 (Nat.not_lt.2 (hblock.since t hb).1)
      · exact ⟨rfl, rfl⟩
    · subst hq
      refine (Builds.edit (hq₄.setEntry hf (fun hl => hfresh (hq₃.shaped.listed f hl)) ?_ ?_
        _)).post fun _ _ _ _ => trivial
      · rw [hget]
      · rw [hget]

end Grammar

namespace Program

theorem shaped_empty : ({} : Program).Shaped where
  forms _ := ⟨nofun, trivial⟩
  inits _ _ h := nomatch h
  bindings _ h := nomatch h
  guards _ _ _ _ _ _ _ h := nomatch h
  bodies _ h := absurd h (Nat.not_lt_zero _)
  params _ := ⟨.nil, nofun⟩
  owners _ _ _ h := nomatch h
  methods _ := ⟨nofun, nofun, nofun⟩
  functions _ := ⟨nofun, nofun, nofun⟩
  entries _ _ h := nomatch h
  listed _ h := nomatch h.choose_spec
  globals _ _ h := nomatch h
  bases _ _ h := nomatch h
  insts _ _ h := nomatch h

theorem untyped_empty : ({} : Program).Untyped :=
  ⟨(fun _ _ _ h => nomatch h), fun _ => rfl, fun _ => rfl, fun _ => rfl, fun _ => rfl, fun _ =>
    rfl, rfl, rfl⟩

theorem sown_empty : ({} : Program).Sown (fun _ => False) where
  forest := by
    have hnone (r : Root) : ({} : Program).rootParts r = [] := by cases r <;> rfl
    refine ⟨fun r x hx => ?_, fun r x hx => ?_, nofun, fun r => ?_, fun r s _ x hx => ?_⟩
    · exact nomatch hnone r ▸ hx
    · exact nomatch hnone r ▸ hx
    · exact hnone r ▸ .nil
    · exact nomatch hnone r ▸ hx
  owned :=
    { classes := fun _ _ h => nomatch h
      methods := fun _ _ h => nomatch h
      overloads := fun _ _ _ h => nomatch h
      distinctMethods := fun _ => .nil
      fields := fun _ _ h => nomatch h
      distinctFields := fun _ => .nil
      params := fun _ _ _ h => nomatch h
      indices := fun _ h => absurd h (Nat.not_lt_zero _) }
  unlinked := ⟨rfl, rfl, fun _ => rfl, (fun _ _ h => nomatch h), fun _ => rfl, fun _ => rfl,
    fun _ => rfl⟩
  nested _ := .inl fun _ h => nomatch h

end Program

end ClassLang

import ClassLang.Proofs.Scope.Idempotent

namespace ClassLang.Program

open List

variable {p q : Program} {O : NodeId → Prop} {us vs ws : List VarId} {i j d : NodeId} {r : Root}

def Visited (p : Program) (vs : List VarId) (j : NodeId) : Prop :=
  ∃ r ∈ p.bodyRoots, (∃ us, ∃ d ∈ p.rootTypes r, p.Reaches us d vs j) ∨
    ∃ d, p.rootBody r = some d ∧ p.Reaches (p.rootVars r).reverse d vs j

theorem spans_visited (p : Program) : p.Spans p.Visited fun _ => True := by
  refine fun r hr => ⟨fun us d hd vs j hj => ⟨⟨r, hr, .inl ⟨us, d, hd, hj⟩⟩, trivial⟩,
    fun d hd vs j hj => ⟨⟨r, hr, .inr ⟨d, ?_, hj⟩⟩, trivial⟩⟩
  exact Option.mem_toList.1 hd

/-- No other declaration reaches a node in the value of one, and the types before the value do not
either. -/
theorem Sown.visited_unique (h : p.Sown O) (hr : r ∈ p.bodyRoots) (hd : p.rootBody r = some d)
    (hj : p.Encloses (p.rootVars r).reverse d vs j) (htype : (p.form j).isType = false)
    (hws : p.Visited ws j) : ws = vs := by
  have hparts := h.owned.rootParts_body hr
  have hmem : d ∈ p.rootParts r := by
    rw [hparts, hd]
    exact mem_append_right _ (mem_singleton_self d)
  -- What else reaches the node starts at the same part of the same declaration.
  have hsame {s : Root} {x : NodeId} (hx : x ∈ p.rootParts s) (hxj : p.Below x j) :
      s = r ∧ x = d := by
    have he : x = d := by
      by_contra hne
      exact h.forest.parts_apart hx hmem hne j hxj (below_of_encloses hj)
    subst he
    exact ⟨h.forest.root_unique hx hmem, rfl⟩
  obtain ⟨s, hs, ⟨us, x, hx, hxj⟩ | ⟨x, hx, hxj⟩⟩ := hws
  · have hx' : x ∈ p.rootParts s := by
      rw [h.owned.rootParts_body hs]
      exact mem_append_left _ hx
    obtain ⟨rfl, rfl⟩ := hsame hx' (below_of_reaches hxj)
    have hapart := h.forest.apart s
    rw [hparts, hd] at hapart
    have hself := (pairwise_append.1 hapart).2.2 x hx x (mem_singleton_self x)
    exact (hself x (.refl x) (.refl x)).elim
  · have hx' : x ∈ p.rootParts s := by
      rw [h.owned.rootParts_body hs, hx]
      exact mem_append_right _ (mem_singleton_self x)
    obtain ⟨rfl, rfl⟩ := hsame hx' (below_of_reaches hxj)
    obtain ⟨n, z, htree⟩ := h.forest.trees s x hmem
    exact hj.unique htype htree hxj

/-- A node stays in the text, or it is the name that a call starts with, and that is of no variable.
-/
theorem Links.explicit {W : List VarId → NodeId → Prop} {S : NodeId → Prop} (h : p.Links W q)
    (hi : q.Explicit S i) (hj : p.Encloses us i vs j) :
    q.Explicit S j ∨ ∃ name ws, p.form j = .name name ∧ W ws j ∧ ∀ v, ¬ p.Denotes ws name v := by
  induction hj with
  | here => exact .inl hi
  | @inside us vs ws i x j hx hj ih =>
    have hmem := mem_inner_of_enclosed hx
    cases hi with
    | node _ _ hparts =>
      rcases inner_of_turns h.akin.vars h.akin.lambdas (h.forms i)
        with hsame | ⟨callee, args, hi, hne, hargs⟩
      · exact ih (hparts x (hsame ▸ hmem))
      rw [hi] at hmem hne
      rcases mem_cons.1 hmem with rfl | hmem
      · have hdecides := (h.decides i).resolve_left (by rwa [hi])
        rw [hi] at hdecides
        obtain ⟨name, ws, hname, hws, hnone⟩ := hdecides
        -- There is nothing inside of a name.
        cases hj with
        | here => exact .inr ⟨name, ws, hname, hws, hnone⟩
        | inside hy _ =>
          rw [hname] at hy
          cases hy
      · exact ih (hparts x (hargs ▸ hmem))

/-- Where a name is read or assigned to in the value of a declaration, it stands for the innermost
variable around it that has this name, and for a variable only if there is one. -/
theorem resolve_lexical (h : p.Loaded) (hok : p.resolve.result = .ok ()) {r : Root} {d j : NodeId}
    {vs : List VarId} (hr : r ∈ p.bodyRoots) (hd : p.rootBody r = some d)
    (hj : p.Encloses (p.rootVars r).reverse d vs j) {name : NameId}
    (hname : p.names.isQualified name = false) :
    (p.form j = .name name →
      ∀ v, p.resolve.program.form j = .getVar v ↔ p.Innermost vs name v) ∧
    ∀ value, p.form j = .setName name value →
      ∀ v, p.resolve.program.form j = .setVar v value ↔ p.Innermost vs name v := by
  obtain ⟨O, hgrown⟩ := h.grown
  have hlinks := (resolve_links hgrown.ground (spans_visited p) hok).1
  have hbindings := resolve_bindings hgrown.sown hgrown.shaped hgrown.untyped hok
  have hunique (ws : List VarId) (hws : p.Visited ws j) (htype : (p.form j).isType = false) :
    ws = vs := hgrown.sown.visited_unique hr hd hj htype hws
  have hdenotes (v : VarId) : p.Denotes vs name v ↔ p.Innermost vs name v := by
    simp [Denotes, hname]
  have hmem : d ∈ p.rootParts r := by
    rw [hgrown.sown.owned.rootParts_body hr, hd]
    exact List.mem_append_right _ (List.mem_singleton_self d)
  obtain ⟨_, _, hscoped⟩ := hbindings.settled r hr d hmem
  have hleft := hlinks.explicit hscoped.explicit hj
  have hdecides := hlinks.decides j
  unfold Decides at hdecides
  constructor
  · intro hform v
    have htype : (p.form j).isType = false := by rw [hform]; rfl
    rw [hform] at hdecides
    rcases hdecides with hsame | ⟨ws, hws, hiff⟩
    · rcases hleft with hexplicit | ⟨name', ws, hname', hws, hnone⟩
      · cases hexplicit with
        | node _ hdefinite _ =>
          rw [hsame] at hdefinite
          exact hdefinite.elim
      · obtain rfl := hunique ws hws htype
        cases hform.symm.trans hname'
        rw [hsame, ← hdenotes]
        exact ⟨by simp, fun hv => (hnone v hv).elim⟩
    · obtain rfl := hunique ws hws htype
      rw [hiff, hdenotes]
  · intro value hform v
    have htype : (p.form j).isType = false := by rw [hform]; rfl
    rw [hform] at hdecides
    rcases hdecides with hsame | ⟨ws, hws, hiff⟩
    · rcases hleft with hexplicit | ⟨name', ws, hname', _⟩
      · cases hexplicit with
        | node _ hdefinite _ =>
          rw [hsame] at hdefinite
          exact hdefinite.elim
      · cases hform.symm.trans hname'
    · obtain rfl := hunique ws hws htype
      rw [hiff, hdenotes]

def hidingText : String := "fn f(int a) { (a) { a := a; a }; a }"

theorem resolve_lexical_hiding : (ofText hidingText).form ⟨6⟩ = .setVar ⟨1⟩ ⟨5⟩ ∧
    (loadText {} "test" hidingText).program.Innermost [⟨1⟩, ⟨0⟩] ⟨2⟩ ⟨1⟩ := by
  have hrun : resolves hidingText = true ∧
      .function ⟨0⟩ ∈ (loadText {} "test" hidingText).program.bodyRoots ∧
      (loadText {} "test" hidingText).program.rootBody (.function ⟨0⟩) = some ⟨2⟩ ∧
      (loadText {} "test" hidingText).program.rootVars (.function ⟨0⟩) = [⟨0⟩] ∧
      (loadText {} "test" hidingText).program.form ⟨2⟩ = .block [⟨8⟩, ⟨9⟩] ∧
      (loadText {} "test" hidingText).program.form ⟨8⟩ = .lambda ⟨0⟩ ∧
      ((loadText {} "test" hidingText).program.lambdas.get ⟨0⟩).params = [⟨1⟩] ∧
      ((loadText {} "test" hidingText).program.lambdas.get ⟨0⟩).body = ⟨3⟩ ∧
      (loadText {} "test" hidingText).program.form ⟨3⟩ = .block [⟨6⟩, ⟨7⟩] ∧
      (loadText {} "test" hidingText).program.form ⟨6⟩ = .setName ⟨2⟩ ⟨5⟩ ∧
      (loadText {} "test" hidingText).program.names.isQualified ⟨2⟩ = false ∧
      (ofText hidingText).form ⟨6⟩ = .setVar ⟨1⟩ ⟨5⟩ := by
    decide +kernel
  obtain ⟨hresolves, hrun⟩ := hrun
  obtain ⟨hload, hok⟩ := loaded_of_resolves hresolves
  rw [ofText] at hrun ⊢
  generalize (loadText {} "test" hidingText).program = p at hload hok hrun ⊢
  obtain ⟨hr, hbody, hvars, h₂, h₈, hparams, hlambda, h₃, h₆, hname, hset⟩ := hrun
  have hj : p.Encloses (p.rootVars (.function ⟨0⟩)).reverse ⟨2⟩ [⟨1⟩, ⟨0⟩] ⟨6⟩ := by
    have h₂₈ : ([⟨0⟩], ⟨8⟩) ∈ p.enclosed (p.rootVars (.function ⟨0⟩)).reverse (p.form ⟨2⟩) := by
      simp [h₂, hvars, enclosed, Form.children]
    have h₈₃ : ([⟨1⟩, ⟨0⟩], ⟨3⟩) ∈ p.enclosed [⟨0⟩] (p.form ⟨8⟩) := by
      simp [h₈, enclosed, hparams, hlambda]
    have h₃₆ : ([⟨1⟩, ⟨0⟩], ⟨6⟩) ∈ p.enclosed [⟨1⟩, ⟨0⟩] (p.form ⟨3⟩) := by
      simp [h₃, enclosed, Form.children]
    exact .inside h₂₈ (.inside h₈₃ (.inside h₃₆ .here))
  exact ⟨hset, ((resolve_lexical hload hok hr hbody hj hname).2 _ h₆ _).1 hset⟩

end ClassLang.Program

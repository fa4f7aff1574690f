import ClassLang.Proofs.Leads

namespace ClassLang

variable {ρ ε σ α β : Type} [Carrier σ]

/-- With the program `p`, `m` gives `a` and leaves the program as it is. -/
def Rests (c : ρ) (p : Program) (m : ReaderT ρ (EStateM ε σ) α) (a : α) : Prop :=
  ∀ s, Carrier.program s = p → ∃ s', m c s = .ok a s' ∧ Carrier.program s' = p

namespace Rests

variable {c : ρ} {p : Program} {m : ReaderT ρ (EStateM ε σ) α} {k : α → ReaderT ρ (EStateM ε σ) β}
  {a : α} {b : β}

theorem pure (a : α) : Rests c p (Pure.pure a : ReaderT ρ (EStateM ε σ) α) a :=
  fun s hs => ⟨s, rfl, hs⟩

theorem bind (h : Rests c p m a) (hk : Rests c p (k a) b) : Rests c p (m >>= k) b := by
  intro s hs
  obtain ⟨s', hm, hs'⟩ := h s hs
  obtain ⟨s'', hk', hs''⟩ := hk s' hs'
  refine ⟨s'', ?_, hs''⟩
  rw [show (m >>= k) c s = EStateM.bind (m c) (fun a => k a c) s from rfl, EStateM.bind, hm]
  exact hk'

theorem map {f : α → β} (h : Rests c p m a) : Rests c p (f <$> m) (f a) := by
  intro s hs
  obtain ⟨s', hm, hs'⟩ := h s hs
  refine ⟨s', ?_, hs'⟩
  rw [show (f <$> m) c s = EStateM.map f (m c) s from rfl, EStateM.map, hm]

theorem discard (h : Rests c p m a) : Rests c p (Functor.discard m) () := h.map

theorem read {k : ρ → ReaderT ρ (EStateM ε σ) β} (h : Rests c p (k c) b) :
    Rests c p (MonadReader.read >>= k) b := h

theorem withReader {g : ρ → ρ} (h : Rests (g c) p m a) : Rests c p (withReader g m) a := h

theorem tryCatch {handle : ε → ReaderT ρ (EStateM ε σ) α} (h : Rests c p m a) :
    Rests c p (MonadExcept.tryCatch m handle) a := by
  intro s hs
  obtain ⟨s', hm, hs'⟩ := h s hs
  refine ⟨s', ?_, hs'⟩
  show EStateM.tryCatch (m c) (fun e => handle e c) s = _
  delta EStateM.tryCatch
  rw [hm]

section Loops

variable {xs : List α} {g : β → α → ReaderT ρ (EStateM ε σ) β}

theorem forM {g : α → ReaderT ρ (EStateM ε σ) Unit} (hg : ∀ x ∈ xs, Rests c p (g x) ()) :
    Rests c p (xs.forM g) () := by
  induction xs with
  | nil => exact .pure ()
  | cons x xs ih =>
    exact .bind (hg x List.mem_cons_self) (ih fun y hy => hg y (List.mem_cons_of_mem x hy))

theorem foldl {f : β → α → β} (hg : ∀ x ∈ xs, ∀ b, Rests c p (g b x) (f b x)) :
    Rests c p (xs.foldlM g b) (xs.foldl f b) := by
  induction xs generalizing b with
  | nil => exact .pure b
  | cons x xs ih =>
    exact .bind (hg x List.mem_cons_self b) (ih fun y hy => hg y (List.mem_cons_of_mem x hy))

theorem foldlM {I : List α → β → Prop} (h : I [] b)
    (hg : ∀ done x rest b, xs = done ++ x :: rest → I done b → ∃ b', Rests c p (g b x) b' ∧
      I (done ++ [x]) b') : ∃ b', Rests c p (xs.foldlM g b) b' ∧ I xs b' := by
  have hfrom (rest done : List α) (b : β) (hxs : xs = done ++ rest) (h : I done b) :
      ∃ b', Rests c p (rest.foldlM g b) b' ∧ I (done ++ rest) b' := by
    induction rest generalizing done b with
    | nil => exact ⟨b, .pure b, by simpa using h⟩
    | cons x rest ih =>
      obtain ⟨b1, hrests, h1⟩ := hg done x rest b hxs h
      obtain ⟨b2, hrests', h2⟩ := ih (done ++ [x]) b1 (by simpa using hxs) h1
      exact ⟨b2, .bind hrests hrests', by simpa using h2⟩
  exact hfrom xs [] b rfl h

end Loops

section Passes

variable {κ : Type}

theorem program {k : Program → ReaderT ρ (Pass κ) β} (h : Rests c p (k p) b) :
    Rests c p (Pass.program >>= k) b := by
  rintro s rfl
  exact h s rfl

theorem edit {f : Program → Program} (h : f p = p) :
    Rests c p (Pass.edit f : ReaderT ρ (Pass κ) Unit) () := by
  rintro s rfl
  exact ⟨_, rfl, h⟩

theorem onProgram {f : Program → α × Program} (h : f p = (a, p)) :
    Rests c p (Pass.onProgram f : ReaderT ρ (Pass κ) α) a := by
  rintro s rfl
  refine ⟨{ s with program := (f s.program).2 }, ?_, congrArg Prod.snd h⟩
  exact congrArg (fun x => EStateM.Result.ok x { s with program := (f s.program).2 })
    (congrArg Prod.fst h)

theorem emit (e : Event) : Rests c p (Pass.emit e : ReaderT ρ (Pass κ) Unit) () := by
  rintro s rfl
  exact ⟨_, rfl, rfl⟩

theorem write {w : Write} (h : w.apply p = p) :
    Rests c p (Pass.write w : ReaderT ρ (Pass κ) Unit) () := by
  rintro s rfl
  exact ⟨_, rfl, h⟩

theorem outcome {m : Pass κ α} (h : Rests () p (fun _ => m) a) :
    (m.outcome p).result = .ok a ∧ (m.outcome p).program = p := by
  obtain ⟨s, hm, hs⟩ := h { program := p } rfl
  replace hm : m.run { program := p } = .ok a s := hm
  unfold Pass.outcome
  rw [hm]
  exact ⟨rfl, hs⟩

end Passes

end Rests

end ClassLang

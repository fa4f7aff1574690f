import ClassLang.Program.Pass

namespace ClassLang

open List

variable {ρ ε σ α β : Type} {handle : ε → EStateM ε σ α} {g : β → α → EStateM ε σ β}
  {I : List α → List β → σ → Prop}

section Readers

variable {m : Type → Type} [Monad m]

theorem foldlM_apply (xs : List α) (g : β → α → ReaderT ρ m β) (b : β) (c : ρ) :
    (xs.foldlM g b) c = xs.foldlM (g · · c) b := by
  induction xs generalizing b with
  | nil => rfl
  | cons x xs ih =>
    rw [foldlM_cons, foldlM_cons]
    exact congrArg _ (funext fun b => ih b)

theorem mapM_apply [LawfulMonad m] (xs : List α) (g : α → ReaderT ρ m β) (c : ρ) :
    (xs.mapM g) c = xs.mapM (g · c) := by
  induction xs with
  | nil => rfl
  | cons x xs ih =>
    rw [mapM_cons, mapM_cons, ← ih]
    rfl

theorem forM_eq_foldlM (xs : List α) (g : α → m Unit) :
    xs.forM g = xs.foldlM (fun _ x => g x) () := by
  induction xs with
  | nil => rfl
  | cons x xs ih => exact congrArg _ (funext fun _ => ih)

end Readers

theorem ok_of_run' {s : σ} {m : EStateM ε σ α} {a : α} (h : m.run' s = some a) :
    ∃ s', m s = .ok a s' := by
  delta EStateM.run' EStateM.run at h
  split at h
  · rename_i s' hm
    cases h
    exact ⟨s', hm⟩
  · cases h

/-- From `s`, `m` gives what `Q` says, or it fails as `E` says. -/
def Yields (s : σ) (m : EStateM ε σ α) (Q : α → σ → Prop) (E : ε → σ → Prop) : Prop :=
  match m s with
  | .ok a s' => Q a s'
  | .error e s' => E e s'

namespace Yields

variable {s : σ} {m : EStateM ε σ α} {k : α → EStateM ε σ β} {Q Q' : α → σ → Prop}
  {P : β → σ → Prop} {E E' : ε → σ → Prop} {e : ε}

section

variable (h : Yields s m Q E)
include h

theorem of_ok {a : α} {s' : σ} (hm : m s = .ok a s') : Q a s' := by rwa [Yields, hm] at h

theorem of_error {s' : σ} (hm : m s = .error e s') : E e s' := by rwa [Yields, hm] at h

theorem imp (hQ : ∀ a s', Q a s' → Q' a s') (hE : ∀ e s', E e s' → E' e s') : Yields s m Q' E' := by
  unfold Yields at h ⊢
  cases hm : m s with
  | ok a s' =>
    rw [hm] at h
    exact hQ a s' h
  | error e s' =>
    rw [hm] at h
    exact hE e s' h

theorem post (hQ : ∀ a s', Q a s' → Q' a s') : Yields s m Q' E := h.imp hQ fun _ _ => id

theorem and (h' : Yields s m Q' E') :
    Yields s m (fun a s' => Q a s' ∧ Q' a s') fun e s' => E e s' ∧ E' e s' := by
  unfold Yields at h h' ⊢
  cases hm : m s <;> rw [hm] at h h' <;> exact ⟨h, h'⟩

theorem bind (hk : ∀ a s', Q a s' → Yields s' (k a) P E) : Yields s (m >>= k) P E := by
  unfold Yields at h ⊢
  rw [show (m >>= k) s = EStateM.bind m k s from rfl, EStateM.bind]
  cases hm : m s with
  | ok a s' =>
    rw [hm] at h
    exact hk a s' h
  | error e s' =>
    rw [hm] at h
    exact h

end

theorem map {f : α → β} (h : Yields s m (fun a => P (f a)) E) : Yields s (f <$> m) P E := by
  unfold Yields at h ⊢
  rw [show (f <$> m) s = EStateM.map f m s from rfl, EStateM.map]
  cases hm : m s <;> rw [hm] at h <;> exact h

theorem tryCatch (h : Yields s m Q E) (hfail : ∀ e s', E e s' → Yields s' (handle e) Q E') :
    Yields s (MonadExcept.tryCatch m handle) Q E' := by
  unfold Yields at h ⊢
  rw [show (MonadExcept.tryCatch m handle) s = EStateM.tryCatch m handle s from rfl]
  delta EStateM.tryCatch
  cases hm : m s with
  | ok a s' =>
    rw [hm] at h
    exact h
  | error e s' =>
    rw [hm] at h
    exact hfail e s' h

theorem pure {a : α} (h : Q a s) : Yields s (Pure.pure a) Q E := h

theorem fail (h : E e s) : Yields s (throw e : EStateM ε σ α) Q E := h

theorem fail_bind (h : E e s) : Yields s ((throw e : EStateM ε σ α) >>= k) P E := h

end Yields

/-- From `s`, `m'` does what `m` does, which is as in `Yields`. -/
def Agrees (s : σ) (m m' : EStateM ε σ α) (Q : α → σ → Prop) (E : ε → σ → Prop) : Prop :=
  m' s = m s ∧ Yields s m Q E

variable {s : σ} {m m' : EStateM ε σ α} {Q Q' : α → σ → Prop} {E E' : ε → σ → Prop}

theorem Yields.agrees (h : Yields s m Q E) : Agrees s m m Q E := ⟨rfl, h⟩

namespace Agrees

variable {k k' : α → EStateM ε σ β} {P : β → σ → Prop} {xs : List α}

theorem imp (h : Agrees s m m' Q E) (hQ : ∀ a s', Q a s' → Q' a s')
    (hE : ∀ e s', E e s' → E' e s') : Agrees s m m' Q' E' :=
  ⟨h.1, h.2.imp hQ hE⟩

theorem bind (h : Agrees s m m' Q E) (hk : ∀ a s', Q a s' → Agrees s' (k a) (k' a) P E) :
    Agrees s (m >>= k) (m' >>= k') P E := by
  refine ⟨?_, h.2.bind fun a s' ha => (hk a s' ha).2⟩
  obtain ⟨heq, hm⟩ := h
  rw [show (m' >>= k') s = EStateM.bind m' k' s from rfl, show (m >>= k) s = EStateM.bind m k s
    from rfl, EStateM.bind, EStateM.bind, heq]
  unfold Yields at hm
  cases hrun : m s with
  | ok a s' =>
    rw [hrun] at hm
    exact (hk a s' hm).1
  | error e s' => rfl

theorem tryCatch (h : Agrees s m m' Q E) (hfail : ∀ e s', E e s' → Yields s' (handle e) Q E') :
    Agrees s (MonadExcept.tryCatch m handle) (MonadExcept.tryCatch m' handle) Q E' := by
  refine ⟨?_, h.2.tryCatch hfail⟩
  show EStateM.tryCatch m' handle s = EStateM.tryCatch m handle s
  delta EStateM.tryCatch
  rw [h.1]

theorem foldlM {g' : β → α → EStateM ε σ β} {b : β} {I : List α → β → σ → Prop} (hI : I [] b s)
    (hg : ∀ done x rest b s', xs = done ++ x :: rest → I done b s' →
      Agrees s' (g b x) (g' b x) (I (done ++ [x])) E) :
    Agrees s (xs.foldlM g b) (xs.foldlM g' b) (I xs) E := by
  have hfrom (rest done : List α) (b : β) (s' : σ) (hxs : xs = done ++ rest) (hI : I done b s') :
      Agrees s' (rest.foldlM g b) (rest.foldlM g' b) (I (done ++ rest)) E := by
    induction rest generalizing done b s' with
    | nil => exact Yields.agrees (.pure (by simpa using hI))
    | cons x rest ih =>
      rw [foldlM_cons, foldlM_cons, append_cons]
      exact .bind (hg done x rest b s' hxs hI) fun b s'' hI' =>
        ih (done ++ [x]) b s'' (by simpa using hxs) hI'
  exact hfrom xs [] b s rfl hI

theorem forM {g g' : α → EStateM ε σ Unit} {I : List α → σ → Prop} (hI : I [] s)
    (hg : ∀ done x rest s', xs = done ++ x :: rest → I done s' →
      Agrees s' (g x) (g' x) (fun _ => I (done ++ [x])) E) :
    Agrees s (xs.forM g) (xs.forM g') (fun _ => I xs) E := by
  rw [forM_eq_foldlM, forM_eq_foldlM]
  exact foldlM (I := fun done _ => I done) hI fun done x rest _ => hg done x rest

theorem mapM {g g' : α → EStateM ε σ β} (hI : I [] [] s)
    (hg : ∀ done ys x rest s', xs = done ++ x :: rest → I done ys s' →
      Agrees s' (g x) (g' x) (fun y => I (done ++ [x]) (ys ++ [y])) E) :
    Agrees s (xs.mapM g) (xs.mapM g') (I xs) E := by
  have hfrom (rest done : List α) (ys : List β) (s' : σ) (hxs : xs = done ++ rest)
      (hI : I done ys s') : Agrees s' (rest.mapM g) (rest.mapM g')
      (fun zs => I xs (ys ++ zs)) E := by
    induction rest generalizing done ys s' with
    | nil =>
      have hdone : xs = done := by rw [hxs, append_nil]
      refine Yields.agrees (.pure ?_)
      rw [reverse_nil, append_nil, hdone]
      exact hI
    | cons x rest ih =>
      rw [mapM_cons, mapM_cons]
      refine .bind (hg done ys x rest s' hxs hI) fun y s'' hI' => ?_
      have hrest := ih (done ++ [x]) (ys ++ [y]) s'' (by simpa using hxs) hI'
      exact .bind hrest fun zs s3 h3 => Yields.agrees (.pure (by simpa using h3))
  exact hfrom xs [] [] s rfl hI

end Agrees

namespace Yields

variable {xs : List α}

theorem foldlM {b : β} {I : List α → β → σ → Prop} (hI : I [] b s)
    (hg : ∀ done x rest b s', xs = done ++ x :: rest → I done b s' →
      Yields s' (g b x) (I (done ++ [x])) E) : Yields s (xs.foldlM g b) (I xs) E :=
  (Agrees.foldlM hI fun done x rest b s' hxs hI => (hg done x rest b s' hxs hI).agrees).2

theorem forM {g : α → EStateM ε σ Unit} {I : List α → σ → Prop} (hI : I [] s)
    (hg : ∀ done x rest s', xs = done ++ x :: rest → I done s' →
      Yields s' (g x) (fun _ => I (done ++ [x])) E) : Yields s (xs.forM g) (fun _ => I xs) E :=
  (Agrees.forM hI fun done x rest s' hxs hI => (hg done x rest s' hxs hI).agrees).2

theorem mapM {g : α → EStateM ε σ β} (hI : I [] [] s)
    (hg : ∀ done ys x rest s', xs = done ++ x :: rest → I done ys s' →
      Yields s' (g x) (fun y => I (done ++ [x]) (ys ++ [y])) E) : Yields s (xs.mapM g) (I xs) E :=
  (Agrees.mapM hI fun done ys x rest s' hxs hI => (hg done ys x rest s' hxs hI).agrees).2

end Yields

section Passes

variable {κ : Type} {s : PassState} {m : Pass κ α} {Q : α → PassState → Prop}
  {P : β → PassState → Prop} {E : Fault κ → PassState → Prop}

namespace Yields

variable {p : Program}

theorem program {k : Program → Pass κ β} (h : Yields s (k s.program) P E) :
    Yields s (Pass.program >>= k) P E := h

theorem onProgram {f : Program → α × Program}
    (h : Q (f s.program).1 { s with program := (f s.program).2 }) :
    Yields s (Pass.onProgram f) Q E := h

theorem edit {f : Program → Program} {Q : Unit → PassState → Prop}
    (h : Q () { s with program := f s.program }) : Yields s (Pass.edit f) Q E := h

theorem emit {e : Event} {Q : Unit → PassState → Prop}
    (h : Q () { s with events := s.events ++ [e] }) : Yields s (Pass.emit e) Q E := h

theorem outcome (h : Yields { program := p } m Q E) : match (m.outcome p).result with
    | .ok a => Q a ⟨(m.outcome p).program, (m.outcome p).events, (m.outcome p).writes⟩
    | .error e => E e ⟨(m.outcome p).program, (m.outcome p).events, (m.outcome p).writes⟩ := by
  unfold Yields at h
  unfold Pass.outcome
  rw [show EStateM.run m { program := p } = m { program := p } from rfl]
  cases hm : m { program := p } <;> rw [hm] at h <;> exact h

theorem outcome_either {R : PassState → Prop}
    (h : Yields { program := p } m (fun _ => R) fun _ => R) :
    R ⟨(m.outcome p).program, (m.outcome p).events, (m.outcome p).writes⟩ := by
  have houtcome := h.outcome
  split at houtcome <;> exact houtcome

end Yields

theorem Agrees.program {k k' : Program → Pass κ β} (h : Agrees s (k s.program) (k' s.program) P E) :
    Agrees s (Pass.program >>= k) (Pass.program >>= k') P E := h

end Passes

end ClassLang

import ClassLang.Grammar.Basic
import ClassLang.Proofs.Yields

namespace ClassLang

open List

class Carrier (σ : Type) where
  program : σ → Program

instance : Carrier PassState := ⟨PassState.program⟩

instance : Carrier Grammar.State := ⟨Grammar.State.program⟩

variable {ρ ε σ α β : Type} [Carrier σ] {f : Program → α × Program} {a : α}

/-- From a state with program `p`, `m` leads to a program for which `R` holds and gives what `Q`
says, or it fails as `E` says. -/
def LeadsOr (E : ε → Prop) (c : ρ) (R : Program → Prop) (p : Program)
    (m : ReaderT ρ (EStateM ε σ) α) (Q : α → Program → Prop) : Prop :=
  ∀ s, Carrier.program s = p →
    Yields s (m c) (fun a s' => R (Carrier.program s') ∧ Q a (Carrier.program s')) fun e _ => E e

abbrev Leads (c : ρ) (R : Program → Prop) (p : Program) (m : ReaderT ρ (EStateM ε σ) α)
    (Q : α → Program → Prop) : Prop :=
  LeadsOr (fun _ => True) c R p m Q

section

variable {c : ρ} {R S : Program → Prop} {p : Program} {m : ReaderT ρ (EStateM ε σ) α}
  {k : α → ReaderT ρ (EStateM ε σ) β} {Q Q' : α → Program → Prop} {P : β → Program → Prop}
  {E E' : ε → Prop}

theorem Leads.of_ok
    (h : ∀ s a s', Carrier.program s = p → m c s = .ok a s' → R (Carrier.program s') ∧
      Q a (Carrier.program s')) : Leads c R p m Q := by
  intro s hs
  unfold Yields
  split
  · exact h s _ _ hs ‹_›
  · trivial

namespace LeadsOr

theorem imp (h : LeadsOr E c S p m Q) (hQ : ∀ a q, S q → Q a q → R q ∧ Q' a q) :
    LeadsOr E c R p m Q' :=
  fun s hs => (h s hs).post fun a _ ha => hQ a _ ha.1 ha.2

theorem post (h : LeadsOr E c R p m Q) (hQ : ∀ a q, R q → Q a q → Q' a q) : LeadsOr E c R p m Q' :=
  h.imp fun a q hR hq => ⟨hR, hQ a q hR hq⟩

theorem bind (h : LeadsOr E c S p m Q) (hk : ∀ a q, S q → Q a q → LeadsOr E c R q (k a) P) :
    LeadsOr E c R p (m >>= k) P :=
  fun s hs => Yields.bind (m := m c) (k := fun a => k a c) (h s hs) fun a s' ha =>
    hk a _ ha.1 ha.2 s' rfl

theorem pure (hR : R p) (hQ : Q a p) :
    LeadsOr E c R p (Pure.pure a : ReaderT ρ (EStateM ε σ) α) Q := by
  rintro s rfl
  exact ⟨hR, hQ⟩

theorem fail {e : ε} (h : E e) : LeadsOr E c R p (throw e : ReaderT ρ (EStateM ε σ) α) Q :=
  fun _ _ => h

theorem fail_bind {e : ε} (h : E e) :
    LeadsOr E c R p ((throw e : ReaderT ρ (EStateM ε σ) α) >>= k) P := fun _ _ => h

theorem map {f : α → β} (h : LeadsOr E c R p m fun a => P (f a)) : LeadsOr E c R p (f <$> m) P :=
  fun s hs => Yields.map (m := m c) (h s hs)

theorem read {k : ρ → ReaderT ρ (EStateM ε σ) β} (h : LeadsOr E c R p (k c) P) :
    LeadsOr E c R p (MonadReader.read >>= k) P := h

theorem withReader {g : ρ → ρ} (h : LeadsOr E (g c) R p m Q) : LeadsOr E c R p (withReader g m) Q :=
  h

theorem tryCatch {handle : ε → ReaderT ρ (EStateM ε σ) α} (h : LeadsOr E' c R p m Q)
    (hfail : ∀ e q, E' e → LeadsOr E c R q (handle e) Q) :
    LeadsOr E c R p (MonadExcept.tryCatch m handle) Q :=
  fun s hs => Yields.tryCatch (m := m c) (h s hs) fun e s' he => hfail e _ he s' rfl

section Loops

variable {xs : List α} {g : α → ReaderT ρ (EStateM ε σ) Unit} {I : List α → Program → Prop}

theorem forM (h : R p) (hg : ∀ x ∈ xs, ∀ q, R q → LeadsOr E c R q (g x) fun _ _ => True) :
    LeadsOr E c R p (xs.forM g) fun _ _ => True := by
  induction xs generalizing p with
  | nil => exact .pure h trivial
  | cons x xs ih =>
    exact .bind (hg x mem_cons_self p h) fun _ q hq _ => ih hq fun y hy =>
      hg y (mem_cons_of_mem x hy)

theorem forM_rest (h : I xs p)
    (hg : ∀ x xs q, I (x :: xs) q → LeadsOr E c (I xs) q (g x) fun _ _ => True) :
    LeadsOr E c (I []) p (xs.forM g) fun _ _ => True := by
  induction xs generalizing p with
  | nil => exact .pure h trivial
  | cons x xs ih => exact .bind (hg x xs p h) fun _ q hq _ => ih hq

theorem forM_done (h : I [] p)
    (hg : ∀ done, ∀ x ∈ xs, ∀ q, I done q → LeadsOr E c (I (done ++ [x])) q (g x) fun _ _ => True) :
    LeadsOr E c (I xs) p (xs.forM g) fun _ _ => True := by
  have hfrom (done : List α) (p : Program) (h : I done p) : LeadsOr E c (I (done ++ xs)) p
      (xs.forM g) fun _ _ => True := by
    induction xs generalizing done p with
    | nil => exact .pure (by rwa [append_nil]) trivial
    | cons x xs ih =>
      rw [append_cons]
      exact .bind (hg done x mem_cons_self p h) fun _ q hq _ =>
        ih (fun done y hy => hg done y (mem_cons_of_mem x hy)) (done ++ [x]) q hq
  exact hfrom [] p h

end Loops

section Passes

variable {κ : Type} {E : Fault κ → Prop}

theorem program {k : Program → ReaderT ρ (Pass κ) β} (h : LeadsOr E c R p (k p) P) :
    LeadsOr E c R p (Pass.program >>= k) P := by
  rintro s rfl
  exact h s rfl

theorem edit {f : Program → Program} (h : R (f p)) :
    LeadsOr E c R p (Pass.edit f : ReaderT ρ (Pass κ) Unit) fun _ q => q = f p := by
  rintro s rfl
  exact ⟨h, rfl⟩

theorem onProgram {Q : α → Program → Prop} (h : R (f p).2) (hQ : Q (f p).1 (f p).2) :
    LeadsOr E c R p (Pass.onProgram f : ReaderT ρ (Pass κ) α) Q := by
  rintro s rfl
  exact ⟨h, hQ⟩

end Passes

end LeadsOr

end

abbrev LeadsTo (R : Program → Prop) (p : Program) (m : EStateM ε σ α) (Q : α → Program → Prop) :
    Prop :=
  Leads () R p (fun _ => m) Q

theorem LeadsTo.outcome {R : Program → Prop} {p : Program} {κ : Type} {m : Pass κ α}
    {Q : α → Program → Prop} (h : LeadsTo R p m Q) (hok : (m.outcome p).result = .ok a) :
    R (m.outcome p).program ∧ Q a (m.outcome p).program := by
  have houtcome := (h { program := p } rfl).outcome
  rwa [hok] at houtcome

end ClassLang

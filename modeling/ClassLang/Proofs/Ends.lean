import ClassLang.Proofs.Leads
import ClassLang.Proofs.Yields

namespace ClassLang

variable {κ α β : Type}

/-- From a state with program `p`, `m` gives what `Q` says, or it fails and leaves what `E` says. -/
def Ends (p : Program) (m : Pass κ α) (Q : α → Program → Prop) (E : Program → Prop) : Prop :=
  ∀ s : PassState, s.program = p → Yields s m (fun a s' => Q a s'.program) fun _ s' => E s'.program

namespace Ends

variable {p : Program} {m : Pass κ α} {k : α → Pass κ β} {Q Q' : α → Program → Prop}
  {P : β → Program → Prop} {E E' : Program → Prop} {xs : List α}

theorem imp (h : Ends p m Q E) (hQ : ∀ a q, Q a q → Q' a q) (hE : ∀ q, E q → E' q) :
    Ends p m Q' E' :=
  fun s hs => (h s hs).imp (fun a _ => hQ a _) fun _ _ => hE _

theorem bind (h : Ends p m Q E) (hk : ∀ a q, Q a q → Ends q (k a) P E) : Ends p (m >>= k) P E :=
  fun s hs => (h s hs).bind fun a s' ha => hk a _ ha s' rfl

theorem pure {a : α} (h : Q a p) : Ends p (Pure.pure a : Pass κ α) Q E := by
  rintro s rfl
  exact h

theorem fail (e : Fault κ) (h : E p) : Ends p (throw e : Pass κ α) Q E := by
  rintro s rfl
  exact h

theorem fail_bind (e : Fault κ) (h : E p) : Ends p ((throw e : Pass κ α) >>= k) P E := by
  rintro s rfl
  exact h

theorem program {k : Program → Pass κ β} (h : Ends p (k p) P E) :
    Ends p (Pass.program >>= k) P E := by
  rintro s rfl
  exact h s rfl

theorem edit {f : Program → Program} {Q : Unit → Program → Prop} (h : Q () (f p)) :
    Ends p (Pass.edit f : Pass κ Unit) Q E := by
  rintro s rfl
  exact h

theorem emit {e : Event} {Q : Unit → Program → Prop} (h : Q () p) :
    Ends p (Pass.emit e : Pass κ Unit) Q E := by
  rintro s rfl
  exact h

theorem foldlM {g : β → α → Pass κ β} {b : β} {I : List α → β → Program → Prop} (hI : I [] b p)
    (hg : ∀ done x rest b q, xs = done ++ x :: rest → I done b q →
      Ends q (g b x) (I (done ++ [x])) E) : Ends p (xs.foldlM g b) (I xs) E := by
  rintro s rfl
  exact Yields.foldlM (I := fun done b s => I done b s.program) hI fun done x rest b s' hxs hI =>
    hg done x rest b _ hxs hI s' rfl

theorem forM {g : α → Pass κ Unit} {I : List α → Program → Prop} (hI : I [] p)
    (hg : ∀ done, ∀ x ∈ xs, ∀ q, I done q → Ends q (g x) (fun _ => I (done ++ [x])) E) :
    Ends p (xs.forM g) (fun _ => I xs) E := by
  rintro s rfl
  refine Yields.forM (I := fun done (s : PassState) => I done s.program) hI
    fun done x rest s' hxs hI => ?_
  exact hg done x (by simp [hxs]) _ hI s' rfl

theorem leadsTo {R : Program → Prop} (h : Ends p m (fun a q => R q ∧ Q a q) E) : LeadsTo R p m Q :=
  fun s hs => (h s hs).imp (fun _ _ h => h) fun _ _ _ => trivial

theorem outcome (h : Ends p m Q E) :
    (∃ a, (m.outcome p).result = .ok a ∧ Q a (m.outcome p).program) ∨
      (∃ e, (m.outcome p).result = .error e) ∧ E (m.outcome p).program := by
  have hm := (h { program := p } rfl).outcome
  split at hm
  · rename_i a hok
    exact .inl ⟨a, hok, hm⟩
  · rename_i e herror
    exact .inr ⟨⟨e, herror⟩, hm⟩

end Ends

end ClassLang

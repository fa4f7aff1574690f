import ClassLang.Grammar.Module

namespace ClassLang.Grammar

theorem advance_apply (c : Context) (s : State) :
    advance c s = .ok ((s.rest.head?.map Lexeme.span).getD ⟨0, 0⟩)
      { s with last := s.rest.head?.or s.last, rest := s.rest.tail } := by
  obtain ⟨last, rest, temps, program⟩ := s
  cases rest <;> rfl

/-- What `m` reads depends neither on the program nor on where the text is from, and the program
stays as it is. -/
def Detached {α : Type} (m : Parse α) : Prop :=
  ∀ c s a s', m c s = .ok a s' →
    s'.program = s.program ∧ ∀ c' p, m c' { s with program := p } = .ok a { s' with program := p }

namespace Detached

variable {α β σ : Type} {m : Parse α} {k : α → Parse β}

theorem bind (h : Detached m) (hk : ∀ a, Detached (k a)) : Detached (m >>= k) := by
  intro c s b s' hrun
  rw [show (m >>= k) c s = EStateM.bind (m c) (fun a => k a c) s from rfl, EStateM.bind] at hrun
  split at hrun
  · rename_i a s₁ hm
    obtain ⟨hprogram, hsame⟩ := h c s a s₁ hm
    obtain ⟨hprogram', hsame'⟩ := hk a c s₁ b s' hrun
    refine ⟨hprogram'.trans hprogram, fun c' p => ?_⟩
    rw [show (m >>= k) c' { s with program := p } = EStateM.bind (m c')
      (fun a => k a c') { s with program := p } from rfl, EStateM.bind, hsame c' p]
    exact hsame' c' p
  · cases hrun

theorem pure (a : α) : Detached (Pure.pure a) := by
  intro c s b s' hrun
  cases hrun
  exact ⟨rfl, fun c' p => rfl⟩

theorem failAt (cause : ParseCause) (span : Span) : Detached (failAt cause span : Parse α) :=
  fun _ _ _ _ hrun => nomatch hrun

theorem rest {k : List Lexeme → Parse α} (hk : ∀ rest, Detached (k rest)) :
    Detached (do k (← get).rest) :=
  fun c s => hk s.rest c s

theorem peek : Detached peek := .rest (k := fun rest => Pure.pure (tokenAt 0 rest)) fun _ => .pure _

theorem peekSpan : Detached peekSpan :=
  .rest (k := fun rest => Pure.pure (((rest.head?).map Lexeme.span).getD ⟨0, 0⟩)) fun _ => .pure _

theorem advance : Detached advance := by
  intro c s a s' h
  rw [advance_apply] at h
  cases h
  exact ⟨rfl, fun c' p => advance_apply c' { s with program := p }⟩

theorem spanFrom (start : Span) : Detached (spanFrom start) := by
  intro c s a s' h
  cases h
  exact ⟨rfl, fun _ _ => rfl⟩

theorem failWanting (wanted : Wanted) : Detached (failWanting wanted : Parse α) :=
  .bind .peek fun _ => .bind .peekSpan fun _ => .failAt _ _

theorem looking (t : Token) : Detached (looking t) := .bind .peek fun _ => .pure _

theorem eat (t : Token) : Detached (eat t) := by
  refine .bind (.looking t) fun found => ?_
  split
  · exact .bind .advance fun _ => .pure _
  · exact .pure _

theorem expect (t : Token) : Detached (expect t) := by
  refine .bind (.looking t) fun found => ?_
  split
  · exact .advance
  · exact .failWanting _

theorem expectIdent : Detached expectIdent := by
  refine .bind .peek fun t => ?_
  split
  · exact .bind .advance fun _ => .pure _
  · exact .failWanting _

theorem repeatFrom {step : σ → Parse (ForInStep σ)} (hstep : ∀ x, Detached (step x)) (x : σ) :
    Detached (repeatFrom step x) := by
  have hupTo (n : Nat) (x : σ) : Detached (repeatUpTo step n x) := by
    induction n generalizing x with
    | zero => exact .pure x
    | succ n ih =>
      refine .bind (hstep x) fun r => ?_
      cases r with
      | done x => exact .pure x
      | yield x => exact ih x
  exact .rest (k := fun rest => repeatUpTo step (rest.length + 1) x) fun rest => hupTo _ x

theorem version : Detached version := by
  refine .bind (.eat _) fun found => ?_
  split
  · refine .bind .peek fun t => ?_
    split
    · split
      · exact .bind .advance fun _ => .pure _
      · exact .failWanting _
    · exact .failWanting _
  · exact .pure _

theorem header : Detached header := by
  unfold Grammar.header
  refine .bind (.eat _) fun found => ?_
  extract_lets imports
  have himports (name : Option (String × Span)) (declared : Nat) :
      Detached (imports () name declared) := by
    refine .bind (.repeatFrom (fun items => .bind (.looking _) fun found => ?_) []) fun _ => .pure _
    split
    · exact .bind .advance fun start => .bind .expectIdent fun _ => .bind .version fun _ =>
        .bind (.expect _) fun _ => .bind (.spanFrom start) fun _ => .pure _
    · exact .pure _
  split
  · exact .bind .expectIdent fun name => .bind .version fun declared => .bind (.expect _) fun _ =>
      himports _ declared
  · exact himports none 0

end Detached

def headerOf? (text : String) : Option Header :=
  match tokenize text with
  | .error _ => none
  | .ok lexemes =>
    match header default { rest := lexemes, program := {} } with
    | .ok h _ => some h
    | .error _ _ => none

/-- A module begins as its text does, whatever was loaded before it. -/
theorem headerOf?_eq_some {text : String} {lexemes : List Lexeme} {c : Context} {p : Program}
    {h : Header} {s : State} (htokens : tokenize text = .ok lexemes)
    (hrun : header c { rest := lexemes, program := p } = .ok h s) : headerOf? text = some h := by
  unfold headerOf?
  rw [htokens]
  dsimp only
  rw [(Detached.header c _ h s hrun).2 default {}]

end ClassLang.Grammar

import ClassLang.Proofs.Load.Places
import ClassLang.Proofs.Scope.Links
import ClassLang.Proofs.Typing.Sound.Program

namespace ClassLang

def Location.InText (provide : String → Option String) (p : Program) (loc : Location) : Prop :=
  ∃ m text, loc.module? = some m ∧ p.modules.Valid m ∧
    provide (p.displayName (p.modules.get m).name) = some text ∧ loc.span.InText text

/-- A name of one segment is shown as it is. -/
theorem NameTable.display_root {t : NameTable} {i : NameId} {segment : String}
    (h : t.find? ⟨none, segment⟩ = some i) : t.display i = segment := by
  obtain ⟨hvalid, hget⟩ := Pool.find?_eq_some.1 h
  obtain ⟨n, hn⟩ := Nat.exists_eq_add_of_lt (Nat.zero_lt_of_lt hvalid)
  have hparent : t.parent i = none := congrArg NameEntry.parent hget
  have hsegment : t.segment i = segment := congrArg NameEntry.segment hget
  rw [display, segments, hn, Nat.zero_add, segmentsUpTo, hparent, hsegment]
  rfl

namespace Program

variable {p : Program} {K : Location → Prop} {provide : String → Option String}

theorem Loaded.ground (h : p.Loaded) (hplaced : p.Placed K) : p.Ground K := by
  obtain ⟨O, hgrown⟩ := h.grown
  exact hgrown.shaped.ground hgrown.sown hplaced

def Printed (provide : String → Option String) (p : Program) (loc : Location) : Prop :=
  ∃ m name text, loc.module? = some m ∧ p.Names m name ∧ provide name = some text ∧
    loc.span.InText text

theorem Printed.inText {loc : Location} (h : p.Printed provide loc) : loc.InText provide p := by
  obtain ⟨m, name, text, hm, hnames, htext, hspan⟩ := h
  refine ⟨m, text, hm, hnames.valid, ?_, hspan⟩
  rw [displayName, NameTable.display_root hnames.found]
  exact htext

theorem charts_printed (provide : String → Option String) :
    Charts provide fun p => p.Printed provide := by
  refine ⟨fun honward h => ?_, fun hm ht hspan => ⟨_, _, _, rfl, hm, ht, hspan⟩⟩
  obtain ⟨m, name, text, hm, hnames, htext, hspan⟩ := h
  exact ⟨m, name, text, hm, honward m name hnames, htext, hspan⟩

theorem inscribed_empty : ({} : Program).Inscribed fun p => p.Printed provide := by
  refine ⟨?_, bodied_empty, grown_empty⟩
  constructor <;> exact fun _ h => absurd h (Nat.not_lt_zero _)

/-- All parts of what is loaded are at places of texts, and so is what cannot be loaded, unless the
root has no text. -/
theorem load_printed (provide : String → Option String) (texts : Nat) (root : String) :
    match (({} : Program).load provide texts root).result with
    | .ok _ => (({} : Program).load provide texts root).program.Inscribed fun p => p.Printed provide
    | .error e => (({} : Program).load provide texts root).program.Printed provide e.loc ∨
        e = ⟨.missingModule root, {}⟩ ∧ provide root = none := by
  have hload := (Load.module_yields (charts_printed provide) (s := { program := {} })
    (texts + 1) [] root {} inscribed_empty).outcome
  rw [load]
  split at hload
  · rename_i hok
    rw [hok]
    exact hload.1
  · rename_i e herr
    rw [herr]
    exact hload.2.imp_right fun h => ⟨h.1, h.2.resolve_left (Nat.succ_ne_zero texts)⟩

/-- Whatever is wrong with a program, the place is in the text of one of the modules that were
loaded, unless the one asked for is missing. -/
theorem faults_inText (provide : String → Option String) (texts : Nat) (root : String) :
    let loaded := ({} : Program).load provide texts root
    (∀ e, loaded.result = .error e → e.loc.InText provide loaded.program ∨
      e.loc.module? = none ∧ e.cause = .missingModule root ∧ provide root = none) ∧
    ∀ i, loaded.result = .ok i →
      (∀ e, loaded.program.resolve.result = .error e → e.loc.InText provide loaded.program) ∧
      (loaded.program.resolve.result = .ok () →
        ∀ e, loaded.program.resolve.program.check.result = .error e →
          e.loc.InText provide loaded.program) := by
  intro loaded
  have hload := load_printed provide texts root
  refine ⟨fun e herr => ?_, fun i hok => ?_⟩
  · rw [herr] at hload
    refine hload.imp (·.inText) ?_
    rintro ⟨rfl, hnone⟩
    exact ⟨rfl, rfl, hnone⟩
  · rw [hok] at hload
    have hloaded : loaded.program.Loaded := .load .empty hok
    have hground := hloaded.ground hload.placed
    have hblames := resolve_blames hground
    refine ⟨fun e herr => ?_, fun hresolve e herr => ?_⟩
    · rw [herr] at hblames
      exact hblames.inText
    · rw [hresolve] at hblames
      obtain ⟨s, hhalted⟩ := Typing.halted_of_check (.resolve hloaded hresolve) herr
      exact (hhalted.spot _ (hblames.placed hground)).inText

def faultyTexts : String → Option String
  | "main" => some "using lib; a = 1;"
  | "lib" => some "// größe\nclass C { x = 1 + true; }"
  | _ => none

theorem faults_inText_imported :
    ∃ e, (({} : Program).load faultyTexts 2 "main").program.resolve.program.check.result =
      .error e ∧ e.loc = ⟨some ⟨1⟩, ⟨29, 33⟩⟩ ∧
      e.loc.InText faultyTexts (({} : Program).load faultyTexts 2 "main").program := by
  have hrun : (({} : Program).load faultyTexts 2 "main").result = .ok ⟨0⟩ ∧
      (({} : Program).load faultyTexts 2 "main").program.resolve.result = .ok () ∧
      (({} : Program).load faultyTexts 2 "main").program.resolve.program.check.result =
        .error ⟨.mismatch (.type TypeId.int) TypeId.bool, ⟨some ⟨1⟩, ⟨29, 33⟩⟩⟩ := by decide +kernel
  have hfaults := faults_inText faultyTexts 2 "main"
  generalize ({} : Program).load faultyTexts 2 "main" = loaded at hrun hfaults ⊢
  obtain ⟨hloaded, hresolved, hfault⟩ := hrun
  exact ⟨_, hfault, rfl, (hfaults.2 _ hloaded).2 hresolved _ hfault⟩

end Program

end ClassLang

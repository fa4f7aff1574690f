import ClassLang.Program.Load
import ClassLang.Proofs.Grammar.Module
import ClassLang.Proofs.Grammar.Reads
import ClassLang.Proofs.Token.Items

namespace ClassLang

open Arena Pool

namespace Program

structure Names (p : Program) (m : ModuleId) (name : String) : Prop where
  valid : p.modules.Valid m
  found : p.names.find? ⟨none, name⟩ = some (p.modules.get m).name

def Onward (p q : Program) : Prop := ∀ m name, p.Names m name → q.Names m name

variable {p q r : Program} {provide : String → Option String} {K : Program → Location → Prop}
  {m : ModuleId} {name : String}

@[refl] theorem Onward.refl (p : Program) : p.Onward p := fun _ _ => id

theorem Onward.trans (h : p.Onward q) (h' : q.Onward r) : p.Onward r :=
  fun m name hm => h' m name (h m name hm)

theorem Names.of_eq (h : p.Names m name) (hvalid : q.modules.Valid m)
    (hname : (q.modules.get m).name = (p.modules.get m).name) (hnames : p.names.Grows q.names) :
    q.Names m name := by
  refine ⟨hvalid, ?_⟩
  rw [hname]
  exact hnames.find? h.found

theorem Heads.onward (h : p.Heads q) : p.Onward q := by
  intro m name hm
  refine hm.of_eq ?_ ?_ h.names
  · exact Nat.lt_of_lt_of_eq hm.valid (size_of_map_eq h.modules).symm
  · exact (congrArg Module.name (get_of_map_eq rfl h.modules m) :)

structure Charts (provide : String → Option String) (K : Program → Location → Prop) : Prop where
  onward : ∀ {p q : Program} {l : Location}, p.Onward q → K p l → K q l
  text : ∀ {p : Program} {m : ModuleId} {name text : String} {span : Span}, p.Names m name →
    provide name = some text → span.InText text → K p ⟨some m, span⟩

structure Inscribed (K : Program → Location → Prop) (p : Program) : Prop where
  placed : p.Placed (K p)
  bodied : p.Bodied
  grown : p.Grown

abbrev Advances (p : Program) (K : Program → Location → Prop) (s : PassState) : Prop :=
  s.program.Inscribed K ∧ p.Onward s.program

namespace Load

variable {α : Type} {last : Option Lexeme} {rule : Grammar.Parse α} {rest : List Lexeme}

theorem parsing_apply (rule : Grammar.Parse α) (last : Option Lexeme) (rest : List Lexeme)
    (s : PassState) :
    parsing m last rest rule s =
      match rule { module := m, moduleName := (s.program.modules.get m).name }
      { last, rest, program := s.program } with
      | .ok a t => .ok (a, t.last, t.rest) { s with program := t.program }
      | .error e t => .error e { s with program := t.program } := rfl

theorem parsing_reads {Q : α → Program → Prop} {t : Grammar.Page} {s : PassState}
    (hrule : Grammar.Reads t
      { module := t.module, moduleName := (s.program.modules.get t.module).name } s.program rule Q)
    (hlast : ∀ l, last = some l → t.Holds l.span) (hrest : ∀ l ∈ rest, t.Holds l.span)
    (hplaced : s.program.Placed t.Known) (hbodied : s.program.Bodied) :
    Yields s (parsing t.module last rest rule)
      (fun a s' => s'.events = s.events ∧ s.program.Heads s'.program ∧
        t.Fits { last := a.2.1, rest := a.2.2, program := s'.program } ∧ Q a.1 s'.program)
      (fun e s' => s'.events = s.events ∧ s.program.Heads s'.program ∧ t.Known e.loc ∧
        e.cause.isGrammar) := by
  have hrun := hrule rfl { last, rest, program := s.program } rfl ⟨hlast, hrest, hplaced, hbodied⟩
  rw [Yields, parsing_apply]
  cases hresult : rule { module := t.module, moduleName := (s.program.modules.get t.module).name }
    { last, rest, program := s.program } with
  | ok a s' =>
    obtain ⟨hfits, hfollows, hq⟩ := hrun.of_ok hresult
    exact ⟨rfl, hfollows.toHeads, { hfits with }, hq⟩
  | error e s' => exact ⟨rfl, hrun.of_error hresult⟩

theorem parsing_grows {s : PassState} (h : s.program.Grown)
    (hrule : ∀ O c, Grammar.Place O c ⟨none, []⟩ s.program → Leads c Grown s.program rule
      fun _ _ => True) :
    Yields s (parsing m last rest rule) (fun _ s' => s'.program.Grown) fun _ _ => True := by
  obtain ⟨O, h⟩ := h
  have hrun := hrule O { module := m, moduleName := (s.program.modules.get m).name }
    ⟨⟨h.shaped, h.untyped, h.sown, rfl, nofun⟩, nofun, nofun⟩
    { last, rest, program := s.program } rfl
  rw [Yields, parsing_apply]
  cases hresult : rule { module := m, moduleName := (s.program.modules.get m).name }
    { last, rest, program := s.program } with
  | ok a s' => exact (hrun.of_ok hresult).1
  | error e s' => trivial

section Parts

variable {E : ParseFault → PassState → Prop} (hK : Charts provide K) {s : PassState}
include hK

section

variable (h : s.program.Inscribed K)
include h

theorem rootName_yields (segment : String) :
    Yields s (rootName segment) (fun i s' => s'.program.Inscribed K ∧ s.program.Onward s'.program ∧
      s'.program.names.find? ⟨none, segment⟩ = some i) E := by
  have honward : s.program.Onward { s.program with names := (s.program.names.root segment).2 } :=
    fun m name hm => hm.of_eq hm.valid rfl (grows_intern _ _)
  refine .onProgram ⟨⟨?_, h.bodied, h.grown.on fun _ h => h.names _⟩, honward, find?_intern _ _⟩
  exact { h.placed.mono fun l => hK.onward honward with }

theorem addModule_yields {i : NameId} {name : String}
    (hname : s.program.names.find? ⟨none, name⟩ = some i) :
    Yields s (addModule { name := i })
      (fun i s' => s'.program.Inscribed K ∧ s.program.Onward s'.program ∧ s'.program.Names i name)
      E := by
  have honward : s.program.Onward
    { s.program with modules := (s.program.modules.push { name := i }).2 } :=
    fun m name hm => hm.of_eq ((Arena.Grows.push _ _).valid hm.valid)
    (congrArg Module.name (get_push_of_valid hm.valid)) (.refl _)
  have hget : (s.program.modules.push { name := i }).2.get ⟨s.program.modules.size⟩ =
    { name := i } := (get_push _ _ _).trans (if_pos rfl)
  refine .onProgram ⟨⟨?_, h.bodied, h.grown.on fun _ h => h.addModule rfl rfl rfl⟩, honward,
    ⟨valid_push.2 (.inr rfl), ?_⟩⟩
  · exact { h.placed.mono fun l => hK.onward honward with }
  · show s.program.names.find? ⟨none, name⟩ = some
      ((s.program.modules.push { name := i }).2.get ⟨s.program.modules.size⟩).name
    rw [hget]
    exact hname

theorem editModule_yields (i : ModuleId) {f : Module → Module}
    (hf : ∀ d, (f d).name = d.name ∧ (f d).functions = d.functions ∧ (f d).entry = d.entry ∧
      (f d).classes = d.classes) : Yields s (editModule i f) (fun _ => s.program.Advances K) E := by
  have honward : s.program.Onward (s.program.modifyModule i f) := fun m name hm =>
    hm.of_eq (valid_modify.2 hm.valid) (get_modify_eq Module.name (fun d => (hf d).1) m) (.refl _)
  have hgrown : (s.program.modifyModule i f).Grown := h.grown.on fun _ h =>
    h.modifyModule (fun d => (hf d).2.1) (fun d => (hf d).2.2.1)
    (fun d c hc => .inl ((hf d).2.2.2 ▸ hc)) i
  refine .edit ⟨⟨?_, h.bodied, hgrown⟩, honward⟩
  exact { h.placed.mono fun l => hK.onward honward with }

end

def page {text : String} (hm : p.Names m name) (ht : provide name = some text) : Grammar.Page where
  module := m
  Holds span := span.InText text
  Known := K p
  holds_zero := .zero text
  holds_cover := .cover
  known := hK.text hm ht

theorem parsing_yields {Q : α → Prop} {text : String} (h : s.program.Inscribed K)
    (hm : s.program.Names m name) (ht : provide name = some text)
    (hrule : ∀ c, Grammar.Reads (page hK hm ht) c s.program rule fun a _ => Q a)
    (hbuilds : ∀ O c, Grammar.Place O c ⟨none, []⟩ s.program → Leads c Grown s.program rule
      fun _ _ => True) (hlast : ∀ l, last = some l → l.span.InText text)
    (hrest : ∀ l ∈ rest, l.span.InText text) :
    Yields s (parsing m last rest rule)
      (fun a s' => (s'.program.Inscribed K ∧ s.program.Onward s'.program) ∧ Q a.1 ∧
        (∀ l, a.2.1 = some l → l.span.InText text) ∧ ∀ l ∈ a.2.2, l.span.InText text)
      (fun e s' => s.program.Onward s'.program ∧ K s'.program e.loc) := by
  refine ((parsing_reads (t := page hK hm ht) (hrule _) hlast hrest h.placed h.bodied).and
    (parsing_grows h.grown hbuilds)).imp ?_ ?_
  · rintro a s' ⟨⟨-, hheads, hfits, hq⟩, hgrown⟩
    have honward := hheads.onward
    exact ⟨⟨⟨hfits.placed.mono fun l => hK.onward honward, hfits.bodied, hgrown⟩, honward⟩, hq,
      hfits.last, hfits.rest⟩
  · rintro e s' ⟨⟨-, hheads, hknown, -⟩, -⟩
    exact ⟨hheads.onward, hK.onward hheads.onward hknown⟩

theorem bindImport_yields {load : String → Location → Load ModuleId}
    (hload : ∀ name loc (s : PassState), s.program.Inscribed K → K s.program loc →
      Yields s (load name loc) (fun _ => s.program.Advances K) fun e s' =>
      s.program.Onward s'.program ∧ K s'.program e.loc) (h : s.program.Inscribed K)
    (active : List String) {import' : String × Nat × Span}
    (hloc : K s.program ⟨some m, import'.2.2⟩) :
    Yields s (bindImport load m active import') (fun _ => s.program.Advances K) fun e s' =>
      s.program.Onward s'.program ∧ K s'.program e.loc := by
  obtain ⟨name, required, span⟩ := import'
  rw [bindImport]
  split
  · exact .fail_bind ⟨.refl _, hloc⟩
  · refine .bind (rootName_yields hK h name) fun nameId s1 h1 => .program ?_
    obtain ⟨h1, ho1, _⟩ := h1
    extract_lets finish
    have hfinish (imported : ModuleId) (s2 : PassState) (h2 : s2.program.Inscribed K)
        (ho2 : s.program.Onward s2.program) : Yields s2 (finish imported)
        (fun _ => s.program.Advances K) fun e s' => s.program.Onward s'.program ∧
        K s'.program e.loc := by
      refine .program ?_
      extract_lets actual done
      split
      · exact .fail_bind ⟨ho2, hK.onward ho2 hloc⟩
      · exact .pure ⟨h2, ho2⟩
    split
    · exact hfinish _ s1 h1 ho1
    · refine .bind ((hload name _ s1 h1 (hK.onward ho1 hloc)).imp (fun _ _ h => h) fun e s' he =>
        ⟨ho1.trans he.1, he.2⟩) fun imported s2 h2 => hfinish imported s2 h2.1 (ho1.trans h2.2)

/-- What goes wrong is at a place of a text, unless there is no text. -/
theorem moduleStep_yields {load : List String → String → Location → Load ModuleId}
    (hload : ∀ active name loc (s : PassState), s.program.Inscribed K → K s.program loc →
      Yields s (load active name loc) (fun _ => s.program.Advances K) fun e s' =>
      s.program.Onward s'.program ∧ K s'.program e.loc) (h : s.program.Inscribed K)
    (active : List String) (name : String) (requestedAt : Location) :
    Yields s (moduleStep provide load active name requestedAt) (fun _ => s.program.Advances K)
      fun e s' => s.program.Onward s'.program ∧
      (K s'.program e.loc ∨ e = ⟨.missingModule name, requestedAt⟩ ∧ provide name = none) := by
  unfold moduleStep
  refine .bind (Q := fun _ s' => s'.program = s.program) (.emit rfl) fun _ s0 hs0 => ?_
  rw [← hs0] at h ⊢
  split
  case h_2 hnone => exact .fail ⟨.refl _, .inr ⟨rfl, Option.eq_none_iff_forall_ne_some.2 hnone⟩⟩
  rename_i text htext
  refine .bind (rootName_yields hK h name) fun nameId s1 ⟨h1, ho1, hfound⟩ => ?_
  refine .bind (addModule_yields hK h1 hfound) fun id s2 ⟨h2, ho2, hid⟩ => ?_
  have ho2 := ho1.trans ho2
  extract_lets active' read
  have hread (lexemes : List Lexeme) (hlexemes : ∀ l ∈ lexemes, l.span.InText text) :
      Yields s2 (read lexemes) (fun _ => s0.program.Advances K)
        fun e s' => s0.program.Onward s'.program ∧
          (K s'.program e.loc ∨ e = ⟨.missingModule name, requestedAt⟩ ∧ provide name = none) := by
    refine .bind ((parsing_yields hK h2 hid htext (fun c => Grammar.header_reads)
      (fun O c => Grammar.header_builds) (fun l hl => by cases hl) hlexemes).imp (fun _ _ h => h)
      fun e s' he => ⟨ho2.trans he.1, .inl he.2⟩)
      fun (header, last, rest) s3 ⟨⟨h3, ho3⟩, ⟨hname, himports⟩, hlast, hrest⟩ => ?_
    have ho3 := ho2.trans ho3
    have hid3 := ‹s2.program.Onward s3.program› _ _ hid
    dsimp -zeta only at hname himports hlast hrest ⊢
    extract_lets body
    have hbody : Yields s3 (body ()) (fun _ => s0.program.Advances K)
        fun e s' => s0.program.Onward s'.program ∧
          (K s'.program e.loc ∨ e = ⟨.missingModule name, requestedAt⟩ ∧ provide name = none) := by
      refine .bind (editModule_yields hK h3 id fun _ => by exact ⟨rfl, rfl, rfl, rfl⟩)
        fun _ s4 ⟨h4, ho4⟩ => ?_
      have hid4 := ho4 _ _ hid3
      refine .bind (.mapM (I := fun _ _ => s4.program.Advances K) ⟨h4, .refl _⟩
        fun done ys x rest s' hxs ⟨hs', hos'⟩ => ?_) fun imports s5 ⟨h5, ho5⟩ => ?_
      · have hx : K s'.program ⟨some id, x.2.2⟩ :=
          hK.text (hos' _ _ hid4) htext (himports x (by simp [hxs]))
        exact (bindImport_yields hK (hload active') hs' active' hx).imp
          (fun _ _ h => ⟨h.1, hos'.trans h.2⟩) fun e s'' he =>
          ⟨((ho3.trans ho4).trans hos').trans he.1, .inl he.2⟩
      · have ho5 := (ho3.trans ho4).trans ho5
        have hid5 := ‹s4.program.Onward s5.program› _ _ hid4
        refine .bind (editModule_yields hK h5 id fun _ => by exact ⟨rfl, rfl, rfl, rfl⟩)
          fun _ s6 ⟨h6, ho6⟩ => ?_
        have hid6 := ho6 _ _ hid5
        refine .bind ((parsing_yields hK h6 hid6 htext (fun c => Grammar.moduleBody_reads)
          (fun O c => Grammar.moduleBody_builds) hlast hrest).imp (fun _ _ h => h) fun e s' he =>
          ⟨(ho5.trans ho6).trans he.1, .inl he.2⟩) fun _ s7 ⟨⟨h7, ho7⟩, _⟩ => .program ?_
        exact .bind (Q := fun _ s' => s'.program = s7.program) (.emit rfl) fun _ s8 hs8 =>
          .pure (show _ ∧ _ from hs8 ▸ ⟨h7, (ho5.trans ho6).trans ho7⟩)
    split
    · rename_i declared span hdeclared
      split
      · exact .fail_bind ⟨ho3, .inl (hK.text hid3 htext (hname _ hdeclared))⟩
      · exact hbody
    · exact hbody
  split
  · rename_i lexemes hlexemes
    exact hread lexemes (span_of_tokenize hlexemes)
  · rename_i e he
    exact .fail_bind ⟨ho2, .inl (hK.text hid htext (span_of_lexError he))⟩

theorem module_yields (depth : Nat) (active : List String) (name : String) (requestedAt : Location)
    (h : s.program.Inscribed K) :
    Yields s (module provide depth active name requestedAt) (fun _ => s.program.Advances K)
      fun e s' => s.program.Onward s'.program ∧
      (K s'.program e.loc ∨ e = ⟨.missingModule name, requestedAt⟩ ∧
        (depth = 0 ∨ provide name = none)) := by
  induction depth generalizing active name requestedAt s with
  | zero => exact .fail ⟨.refl _, .inr ⟨rfl, .inl rfl⟩⟩
  | succ depth ih =>
    refine (moduleStep_yields hK (fun active name loc s h hloc => ?_) h active name requestedAt).imp
      (fun _ _ h => h) fun e s' he =>
      ⟨he.1, he.2.imp_right fun hmissing => ⟨hmissing.1, .inr hmissing.2⟩⟩
    refine (ih active name loc h).imp (fun _ _ h => h) fun e s' he => ⟨he.1, he.2.elim id ?_⟩
    rintro ⟨rfl, _⟩
    exact hK.onward he.1 hloc

end Parts

end Load

theorem placed_true (p : Program) : p.Placed fun _ => True := by
  constructor <;> exact fun _ _ => trivial

theorem charts_true (provide : String → Option String) : Charts provide fun _ _ => True :=
  ⟨fun _ _ => trivial, fun _ _ _ => trivial⟩

theorem bodied_empty : ({} : Program).Bodied := fun _ hm => nomatch hm

theorem grown_empty : ({} : Program).Grown := ⟨_, .refl shaped_empty untyped_empty sown_empty⟩

theorem load_inscribed (h : p.Inscribed fun _ _ => True) (texts : Nat) (root : String)
    {i : ModuleId} (hok : (p.load provide texts root).result = .ok i) :
    (p.load provide texts root).program.Inscribed fun _ _ => True := by
  have hload := (Load.module_yields (charts_true provide) (s := { program := p })
    (texts + 1) [] root {} h).outcome
  rw [load] at hok ⊢
  rw [hok] at hload
  exact hload.1

end Program

end ClassLang

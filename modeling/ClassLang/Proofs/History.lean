import ClassLang.Program.Write
import ClassLang.Proofs.Colds

namespace ClassLang

open Arena

structure Marks where
  nodes : Arena .node Slot
  vars : Arena .var Slot
  methods : Arena .method Slot
  functions : Arena .function Slot
  colds : ColdTable
deriving DecidableEq

def Program.marks (p : Program) : Marks where
  nodes := p.nodes.map Node.slot
  vars := p.vars.map Var.slot
  methods := p.methods.map Method.slot
  functions := p.functions.map Function.slot
  colds := p.colds

def Write.mark : Write → Marks → Marks
  | node i slot, m => { m with nodes := m.nodes.modify i fun _ => slot }
  | var v slot, m => { m with vars := m.vars.modify v fun _ => slot }
  | param v type, m => { m with vars := m.vars.modify v fun _ => .fixed type }
  | method d type, m => { m with methods := m.methods.modify d fun _ => .fixed type }
  | function d type, m => { m with functions := m.functions.modify d fun _ => .fixed type }
  | add entry, m => { m with nodes := (m.nodes.push entry.slot).2 }
  | place l, m => { m with colds := (m.colds.create l).2 }
  | merge target source, m => { m with colds := (m.colds.merge target source).2 }
  | fixing c on, m => { m with colds := m.colds.update c ({ · with fixing := on }) }
  | signature c type, m => { m with colds := m.colds.update c ({ · with signature := some type }) }

namespace Marks

structure Kept (m m' : Marks) : Prop where
  nodes : ∀ i t, m.nodes.get i = .fixed t → m'.nodes.get i = .fixed t
  vars : ∀ v t, m.vars.get v = .fixed t → m'.vars.get v = .fixed t
  methods : ∀ d t, m.methods.get d = .fixed t → m'.methods.get d = .fixed t
  functions : ∀ d t, m.functions.get d = .fixed t → m'.functions.get d = .fixed t
  signatures : ∀ c t, (m.colds.lookup c).signature = some t → (m'.colds.lookup c).signature = some t

def replay (m : Marks) : List Write → Marks
  | [] => m
  | w :: ws => w.mark (m.replay ws)

def Throughout (P : Marks → Write → Prop) (m : Marks) : List Write → Prop
  | [] => True
  | w :: ws => P (m.replay ws) w ∧ m.Throughout P ws

def WriteOnce (m : Marks) (ws : List Write) : Prop :=
  ∀ earlier later, later <:+ ws → earlier <:+ later → Kept (m.replay earlier) (m.replay later)

def Refixes (m : Marks) : Write → Prop
  | .param v t => ∃ u, m.vars.get v = .fixed u ∧ u ≠ t
  | .signature c t => ∃ u, (m.colds.lookup c).signature = some u ∧ u ≠ t
  | _ => False

def Disturbs (m : Marks) : Write → Prop
  | .merge x y =>
    m.colds.find x ≠ m.colds.find y ∧ ((m.colds.lookup x).fixing ∨ (m.colds.lookup y).fixing)
  | _ => False

def Restarts (m : Marks) : Write → Prop
  | .fixing c true => (m.colds.lookup c).signature.isSome
  | _ => False

def Calm (m : Marks) (ws : List Write) : Prop := m.Throughout (fun m w => ¬ m.Disturbs w) ws

def Fresh (m : Marks) (ws : List Write) : Prop := m.Throughout (fun m w => ¬ m.Restarts w) ws

instance (m : Marks) : (w : Write) → Decidable (m.Disturbs w)
  | .merge x y => inferInstanceAs (Decidable (m.colds.find x ≠ m.colds.find y ∧
      ((m.colds.lookup x).fixing ∨ (m.colds.lookup y).fixing)))
  | .node _ _ | .var _ _ | .param _ _ | .method _ _ | .function _ _ | .add _ | .place _ | .fixing _
      _ | .signature _ _ =>
    isFalse id

instance (m : Marks) : (w : Write) → Decidable (m.Restarts w)
  | .fixing c true => inferInstanceAs (Decidable ((m.colds.lookup c).signature.isSome = true))
  | .node _ _ | .var _ _ | .param _ _ | .method _ _ | .function _ _ | .add _ | .place _ | .merge _ _
      | .fixing _ false
  | .signature _ _ => isFalse id

instance decidableThroughout (P : Marks → Write → Prop) [∀ m w, Decidable (P m w)] (m : Marks) :
    (ws : List Write) → Decidable (m.Throughout P ws)
  | [] => isTrue trivial
  | w :: ws =>
    @instDecidableAnd _ _ (inferInstanceAs (Decidable (P (m.replay ws) w)))
      (decidableThroughout P m ws)

instance (m : Marks) (ws : List Write) : Decidable (m.Calm ws) :=
  inferInstanceAs (Decidable (m.Throughout _ ws))

instance (m : Marks) (ws : List Write) : Decidable (m.Fresh ws) :=
  inferInstanceAs (Decidable (m.Throughout _ ws))

variable {m m' m'' : Marks} {w : Write} {ws : List Write} {P Q : Marks → Write → Prop}

theorem Kept.refl (m : Marks) : Kept m m :=
  ⟨fun _ _ => id, fun _ _ => id, fun _ _ => id, fun _ _ => id, fun _ _ => id⟩

theorem Kept.trans (h : Kept m m') (h' : Kept m' m'') : Kept m m'' where
  nodes i t ht := h'.nodes i t (h.nodes i t ht)
  vars v t ht := h'.vars v t (h.vars v t ht)
  methods d t ht := h'.methods d t (h.methods d t ht)
  functions d t ht := h'.functions d t (h.functions d t ht)
  signatures c t ht := h'.signatures c t (h.signatures c t ht)

theorem Throughout.imp (hPQ : ∀ m w, P m w → Q m w) (h : m.Throughout P ws) :
    m.Throughout Q ws := by
  induction ws with
  | nil => trivial
  | cons w ws ih => exact ⟨hPQ _ _ h.1, ih h.2⟩

theorem Throughout.and (h : m.Throughout P ws) (h' : m.Throughout Q ws) :
    m.Throughout (fun m w => P m w ∧ Q m w) ws := by
  induction ws with
  | nil => trivial
  | cons w ws ih => exact ⟨⟨h.1, h'.1⟩, ih h.2 h'.2⟩

theorem Throughout.of_suffix {ws' : List Write} (h : m.Throughout P ws) (hs : ws' <:+ ws) :
    m.Throughout P ws' := by
  obtain ⟨later, rfl⟩ := hs
  induction later with
  | nil => exact h
  | cons w later ih => exact ih h.2

theorem kept_of_throughout {K : Marks → Marks → Prop} (hrefl : ∀ m, K m m)
    (htrans : ∀ m m' m'', K m m' → K m' m'' → K m m'')
    (h : m.Throughout (fun m w => K m (w.mark m)) ws) {earlier : List Write} (hs : earlier <:+ ws) :
    K (m.replay earlier) (m.replay ws) := by
  obtain ⟨later, rfl⟩ := hs
  induction later with
  | nil => exact hrefl _
  | cons w later ih => exact htrans _ _ _ (ih h.2) h.1

theorem writeOnce_iff : m.WriteOnce ws ↔ m.Throughout (fun m w => Kept m (w.mark m)) ws := by
  constructor
  · intro h
    induction ws with
    | nil => trivial
    | cons w ws ih =>
      refine ⟨h ws (w :: ws) (List.suffix_refl _) (List.suffix_cons w ws),
        ih fun earlier later hl he => ?_⟩
      exact h earlier later (hl.trans (List.suffix_cons w ws)) he
  · intro h earlier later hl he
    exact kept_of_throughout Kept.refl (fun _ _ _ => Kept.trans) (h.of_suffix hl) he

section Kept

variable {slot : Slot} {t : TypeId}

theorem get_modify_fixed {e : Entity} {a : Arena e Slot} {i : Id e}
    (h : ∀ t, a.get i = .fixed t → slot = .fixed t) (j : Id e) (t : TypeId)
    (ht : a.get j = .fixed t) : (a.modify i fun _ => slot).get j = .fixed t := by
  rw [get_modify]
  split
  · rename_i hij
    exact h t (hij.1 ▸ ht)
  · exact ht

theorem kept_node {i : NodeId} (h : ∀ t, m.nodes.get i = .fixed t → slot = .fixed t) :
    m.Kept ((Write.node i slot).mark m) :=
  { Kept.refl m with nodes := get_modify_fixed h }

theorem kept_var {v : VarId} (h : ∀ t, m.vars.get v = .fixed t → slot = .fixed t) :
    m.Kept ((Write.var v slot).mark m) :=
  { Kept.refl m with vars := get_modify_fixed h }

theorem kept_param_or_refixes (m : Marks) (v : VarId) (t : TypeId) :
    m.Kept ((Write.param v t).mark m) ∨ m.Refixes (.param v t) := by
  by_cases h : ∃ u, m.vars.get v = .fixed u ∧ u ≠ t
  · exact .inr h
  · refine .inl { Kept.refl m with vars := get_modify_fixed fun u hu => ?_ }
    rw [Decidable.byContradiction fun hne => h ⟨u, hu, Ne.symm hne⟩]

theorem kept_method {d : MethodId} (h : ∀ u, m.methods.get d = .fixed u → t = u) :
    m.Kept ((Write.method d t).mark m) :=
  { Kept.refl m with methods := get_modify_fixed fun u hu => congrArg Slot.fixed (h u hu) }

theorem kept_function {d : FunctionId} (h : ∀ u, m.functions.get d = .fixed u → t = u) :
    m.Kept ((Write.function d t).mark m) :=
  { Kept.refl m with functions := get_modify_fixed fun u hu => congrArg Slot.fixed (h u hu) }

theorem kept_add (m : Marks) (entry : Node) : m.Kept ((Write.add entry).mark m) := by
  refine { Kept.refl m with nodes := fun i t ht => ?_ }
  have hi : m.nodes.Valid i := valid_of_get_ne (ht ▸ nofun)
  exact (get_push_of_valid hi).trans ht

theorem kept_place (h : m.colds.Rooted) (l : LambdaId) : m.Kept ((Write.place l).mark m) := by
  refine { Kept.refl m with signatures := fun c t ht => ?_ }
  have hv : m.colds.Valid (m.colds.find c) := ColdTable.valid_of_signature ht
  have hne : m.colds.find c ≠ ⟨m.colds.size⟩ := fun he => not_valid_size m.colds (he ▸ hv)
  simp only [Write.mark, ColdTable.lookup, (h.create l).2, ColdTable.get_create, if_neg hne]
  exact ht

theorem kept_merge (h : m.colds.Rooted) {x y : ColdId} (hx : m.colds.Valid x) (hy : m.colds.Valid y)
    (hsx : (m.colds.lookup x).signature = none) (hsy : (m.colds.lookup y).signature = none) :
    m.Kept ((Write.merge x y).mark m) := by
  refine { Kept.refl m with signatures := fun c t ht => ?_ }
  by_cases hxy : m.colds.find x = m.colds.find y
  · simpa only [Write.mark, ColdTable.merge_of_eq hxy] using ht
  · have hcx : m.colds.find c ≠ m.colds.find x := fun he => by
      rw [ColdTable.lookup, he] at ht
      cases hsx.symm.trans ht
    have hcy : m.colds.find c ≠ m.colds.find y := fun he => by
      rw [ColdTable.lookup, he] at ht
      cases hsy.symm.trans ht
    simp only [Write.mark, ColdTable.lookup, (h.merge hx hy hxy).2, if_neg hcy,
      h.get_merge hx hy hxy, if_neg hcx]
    exact ht

theorem kept_fixing (m : Marks) (c : ColdId) (on : Bool) : m.Kept ((Write.fixing c on).mark m) := by
  refine { Kept.refl m with signatures := fun d t ht => ?_ }
  rw [Write.mark, ColdTable.lookup_update fun _ => by rfl]
  split <;> exact ht

theorem kept_signature_or_refixes (m : Marks) (c : ColdId) (t : TypeId) :
    m.Kept ((Write.signature c t).mark m) ∨ m.Refixes (.signature c t) := by
  by_cases h : ∃ u, (m.colds.lookup c).signature = some u ∧ u ≠ t
  · exact .inr h
  · refine .inl { Kept.refl m with signatures := fun d u hu => ?_ }
    rw [Write.mark, ColdTable.lookup_update fun _ => by rfl]
    split
    · rename_i hcd
      have hcu : (m.colds.lookup c).signature = some u := by rw [ColdTable.lookup, hcd.1]; exact hu
      rw [Decidable.byContradiction fun hne => h ⟨u, hcu, hne⟩]
    · exact hu

end Kept

theorem not_kept_of_refixes (h : m.Refixes w) : ¬ Kept m (w.mark m) := by
  intro hk
  cases w with
  | param v t =>
    obtain ⟨u, hu, hne⟩ := h
    have hv : m.vars.Valid v := valid_of_get_ne (hu ▸ nofun)
    have ht := hk.vars v u hu
    rw [Write.mark, get_modify_self hv] at ht
    exact hne (Slot.fixed.inj ht).symm
  | signature c t =>
    obtain ⟨u, hu, hne⟩ := h
    have ht := hk.signatures c u hu
    rw [Write.mark, ColdTable.lookup_update fun _ => by rfl,
      if_pos ⟨rfl, ColdTable.valid_of_signature hu⟩] at ht
    exact hne (Option.some.inj ht).symm
  | _ => exact h

/-- If a write can only do harm by giving something a second type, then a history without such a
write is one in which nothing known changes, and no other is. -/
theorem writeOnce_iff_of_clean (h : m.Throughout (fun m w => Kept m (w.mark m) ∨ m.Refixes w) ws) :
    m.WriteOnce ws ↔ m.Throughout (fun m w => ¬ m.Refixes w) ws := by
  rw [writeOnce_iff]
  constructor
  · exact Throughout.imp fun m w hk hr => not_kept_of_refixes hr hk
  · intro hn
    exact (h.and hn).imp fun m w hw => hw.1.resolve_right hw.2

end Marks

theorem Write.marks_apply (w : Write) (p : Program) : (w.apply p).marks = w.mark p.marks := by
  have hmap {e : Entity} {α : Type} {slot : α → Slot} {f : α → α} {s : Slot}
    (hf : ∀ x, slot (f x) = s) (a : Arena e α) (i : Id e) : (a.modify i f).map slot =
    (a.map slot).modify i fun _ => s := map_modify slot hf a i
  cases w with
  | node | var | param | method | function =>
    simp only [Write.apply, Write.mark, Program.marks, Program.setSlot, Program.setVarSlot,
      Program.modifyMethod, Program.modifyFunction, Marks.mk.injEq, and_true, true_and]
    exact hmap (fun _ => by rfl) _ _
  | add entry => simp [Write.apply, Write.mark, Program.marks, map_push]
  | place | merge | fixing | signature => rfl

end ClassLang

import ResourceCode.Proofs.Emission.Growth
import ResourceCode.Proofs.Recipe.Emitter

/-!
How the emission of a value begins. The result is settled at once, or an emitter is run: the registered one,
or one that is drafted then and there. A generator that nobody gave custom emitters has in its registry the
built-in ones, followed by those it has drafted.
-/

namespace ResourceCode

namespace Registry

theorem nodup_typeNames : (Builtin.all.map Builtin.typeName).Nodup := by decide +kernel

theorem lookup_typeName {bs : List Builtin} {b : Builtin}
    (hn : (bs.map Builtin.typeName).Nodup) (hb : b ∈ bs) :
    (bs.map fun b => (b.typeName, Emitter.builtin b)).lookup b.typeName = some (.builtin b) := by
  induction bs with
  | nil => cases hb
  | cons c rest ih =>
    obtain ⟨hc, hrest⟩ := List.nodup_cons.mp hn
    rcases List.mem_cons.mp hb with rfl | hmem
    · simp
    · have hne : b.typeName ≠ c.typeName := fun heq => hc (heq ▸ List.mem_map_of_mem hmem)
      rw [List.map_cons, List.lookup_cons, beq_false_of_ne hne]
      exact ih hrest hmem

/-- Built-in emitters are found under the names of their types. -/
theorem find?_builtin (b : Builtin) : builtin.find? b.typeName = some (.builtin b) :=
  lookup_typeName nodup_typeNames (Builtin.mem_all b)

/-- Null apart, every literal has a built-in emitter, for the primitive type of its value. -/
theorem find?_builtin_literal {l : Literal} {type : TypeName}
    (h : (Value.literal l).typeName? = some type) :
    ∃ p, builtin.find? type = some (.builtin (.primitive p)) := by
  obtain ⟨p, -, rfl⟩ := Option.map_eq_some_iff.mp h
  exact ⟨p, find?_builtin (.primitive p)⟩

theorem find?_builtin_list : builtin.find? listTypeName = some (.builtin .list) :=
  find?_builtin .list

/-- The built-in emitters, followed by emitters drafted for some of the types. -/
def Within (types : Descriptor → Prop) (order : PropertyOrder) (r : Registry) : Prop :=
  ∃ more, r.entries = builtin.entries ++ more ∧
    ∀ entry ∈ more, ∃ d, types d ∧ entry = (d.name, .drafted (.ofDescriptor d order))

variable {types : Descriptor → Prop} {order : PropertyOrder} {r : Registry} {type : TypeName}
  {e : Emitter}

/-- The registry that a generator starts with is within any types. -/
theorem within_builtin (types : Descriptor → Prop) (order : PropertyOrder) :
    builtin.Within types order := ⟨[], by simp⟩

theorem mem_of_find? (h : r.find? type = some e) : (type, e) ∈ r.entries := by
  obtain ⟨before, after, heq, -⟩ := List.lookup_eq_some_iff.mp h
  simp [heq]

/-- Built-in emitters stay in charge of their types. -/
theorem Within.find?_of_builtin (hr : r.Within types order) (h : builtin.find? type = some e) :
    r.find? type = some e := by
  obtain ⟨more, hmore, -⟩ := hr
  exact find?_isSome_of_append hmore h

/-- What is found is built in, or drafted for one of the types. -/
theorem Within.find?_eq (hr : r.Within types order) (h : r.find? type = some e) :
    builtin.find? type = some e ∨
      ∃ d, types d ∧ d.name = type ∧ e = .drafted (.ofDescriptor d order) := by
  obtain ⟨more, hmore, hd⟩ := hr
  unfold find? at h ⊢
  rw [hmore, List.lookup_append] at h
  cases hb : builtin.entries.lookup type with
  | some b => simp_all
  | none =>
    rw [hb, Option.none_or] at h
    obtain ⟨d, htypes, heq⟩ := hd _ (mem_of_find? (r := ⟨more⟩) h)
    cases heq
    exact .inr ⟨d, htypes, rfl, rfl⟩

theorem isOwn_of_builtin (h : builtin.find? type = some e) : e.IsOwn := by
  obtain ⟨b, -, heq⟩ := List.mem_map.mp (mem_of_find? h)
  cases heq
  trivial

/-- No emitter is registered from outside. -/
theorem Within.isOwn (hr : r.Within types order) (h : r.find? type = some e) : e.IsOwn := by
  obtain hb | ⟨d, -, -, rfl⟩ := hr.find?_eq h
  · exact isOwn_of_builtin hb
  · trivial

/-- With an emitter drafted for a type. -/
def drafting (r : Registry) (d : Descriptor) (order : PropertyOrder) : Registry :=
  ⟨r.entries ++ [(d.name, .drafted (.ofDescriptor d order))]⟩

/-- Drafting for one of the types stays within them. -/
theorem Within.drafting {d : Descriptor} (hr : r.Within types order) (hd : types d) :
    (r.drafting d order).Within types order := by
  obtain ⟨more, hmore, hm⟩ := hr
  refine ⟨more ++ [(d.name, .drafted (.ofDescriptor d order))], by simp [Registry.drafting, hmore], ?_⟩
  intro entry hentry
  rcases List.mem_append.mp hentry with h | h
  · exact hm entry h
  · exact ⟨d, hd, List.mem_singleton.mp h⟩

/-- The emitter that handles a value, and the registry in which it is run. -/
inductive InCharge (order : PropertyOrder) (r : Registry) : Value → Emitter → Registry → Prop
  | registered {v type e} : v.typeName? = some type → r.find? type = some e → InCharge order r v e r
  | drafted {o} : r.find? o.type.name = none → o.type.isEnumeration = false →
      o.type.derivesLocator = false →
      InCharge order r (.object o) (.drafted (.ofDescriptor o.type order)) (r.drafting o.type order)

/-- The emitter in charge is one of the generator's own. -/
theorem InCharge.isOwn {v : Value} {s : Registry} (h : r.InCharge order v e s)
    (hr : r.Within types order) : e.IsOwn := by
  cases h with
  | registered _ hf => exact hr.isOwn hf
  | drafted => trivial

/-- So the registry in which it is run stays within the types, if the object's type is one of them. -/
theorem InCharge.within {v : Value} {s : Registry} (h : r.InCharge order v e s)
    (hr : r.Within types order)
    (ht : ∀ o, v = .object o → o.type.isEnumeration = false → types o.type) :
    s.Within types order := by
  cases h with
  | registered => exact hr
  | drafted _ he _ => exact hr.drafting (ht _ rfl he)

end Registry

/-- How the emission of a value begins. -/
inductive Opening where
  | settled (r : Except EmitError Expr)
  | runs (e : Emitter) (g : Generator)

/-- With an object counted as being in progress. -/
def Generator.entered (g : Generator) : Value → Generator
  | .object o => { g with inProgress := o :: g.inProgress }
  | _ => g

/-- With an object no longer in progress. -/
def Workshop.left (w : Workshop) : Value → Workshop
  | .object o => w.leave o
  | _ => w

/-- With another generator. -/
def Workshop.withGenerator (w : Workshop) (g : Generator) : Workshop := { w with generator := g }

@[simp] theorem Workshop.generator_withGenerator (w : Workshop) (g : Generator) :
    (w.withGenerator g).generator = g := rfl

/-- What an opening leads to, given how emitters are run. -/
def Opening.follow (run : Emitter → Emission) (scope : Scope) (v : Value) (base : String)
    (w : Workshop) : Opening → Option (Outcome Expr)
  | .settled r => some (r, w)
  | .runs e g => (run e scope v base (w.withGenerator g)).map fun (r, w') => (r, w'.left v)

namespace Generator

def isInProgress (g : Generator) : Value → Bool
  | .object o => decide (o ∈ g.inProgress)
  | _ => false

/-- The construction of a view-model locator. -/
def locator (v : Value) : Except EmitError Expr :=
  match v.typeName? with
  | some type => .ok (.new (.ofName type) [])
  | none => .error (.unsupported v "expected an object")

/-- Opens with an emitter drafted for the type of an object. -/
def drafting (g : Generator) : Value → Opening
  | .object o =>
    .runs (.drafted (.ofDescriptor o.type g.options.order)) ((g.entered (.object o)).draft o.type).2
  | v => .settled (.error (.unsupported v "no emitter is registered for this type"))

def opening (g : Generator) (v : Value) : Opening :=
  if g.isInProgress v then .settled (.error (.unsupported v "cyclic reference"))
  else
    match g.handling v with
    | .null => .settled (.ok .null)
    | .registered e => .runs e (g.entered v)
    | .enumeration => .settled (enumMember v)
    | .locator => .settled (locator v)
    | .blueprint => g.drafting v

variable {run : Emitter → Emission} {g : Generator}

/-- Only what has no emitter, is no enumeration and does not derive from a locator is handled by blueprint. -/
theorem handling_blueprint {v : Value} (h : g.handling v = .blueprint) (o : Object)
    (hv : v = .object o) :
    g.registry.find? o.type.name = none ∧ o.type.isEnumeration = false ∧
      o.type.derivesLocator = false := by
  subst hv
  simp only [handling, Value.typeName?] at h
  split at h
  · cases h
  · rename_i hnone
    by_cases he : o.type.isEnumeration <;> by_cases hl : o.type.derivesLocator <;> simp_all

/-- What is handled by an emitter has a type for which it is registered. -/
theorem handling_registered {v : Value} {e : Emitter} (h : g.handling v = .registered e) :
    ∃ type, v.typeName? = some type ∧ g.registry.find? type = some e := by
  unfold handling at h
  split at h
  · cases h
  · rename_i type htype
    split at h
    · rename_i e' he
      cases h
      exact ⟨type, htype, he⟩
    · split at h
      · cases h
      · split at h
        · cases h
        · split at h <;> cases h
      · cases h

/-- A value with an emitter in charge is handled by it, or by blueprint. -/
theorem handling_of_inCharge {v : Value} {e : Emitter} {s : Registry}
    (h : g.registry.InCharge g.options.order v e s) :
    g.handling v = .registered e ∨ g.handling v = .blueprint := by
  cases h with
  | registered htype hf =>
    left
    simp only [handling, htype, hf]
  | drafted hnone henum hbase =>
    right
    simp [handling, Value.typeName?, hnone, henum, hbase]

/-- A type that is handled by blueprint can be drafted. -/
theorem draft_of_handling {o : Object} (h : g.handling (.object o) = .blueprint) :
    ∃ report, (g.entered (.object o)).draft o.type =
      (.ok (.drafted (.ofDescriptor o.type g.options.order)),
        { g.entered (.object o) with
          registry := g.registry.drafting o.type g.options.order
          report }) :=
  draft_of_find?_eq_none (g := g.entered (.object o)) (handling_blueprint h o rfl).1

/-- An emission is its opening, and then the run of the emitter, if there is one. -/
theorem emitVia_eq (scope : Scope) (v : Value) (base : String) (w : Workshop) :
    emitVia run scope v base w = (w.generator.opening v).follow run scope v base w := by
  cases v with
  | object o =>
    by_cases ho : o ∈ w.generator.inProgress
    · simp [emitVia, opening, isInProgress, ho, Opening.follow]
    · simp only [emitVia, opening, isInProgress, ho, if_false, decide_false, Bool.false_eq_true]
      cases hw : w.generator.handling (.object o) with
      | null => simp [handle, Opening.follow]
      | registered e => rfl
      | enumeration => simp [handle, Opening.follow]
      | locator => simp [handle, Opening.follow, locator, Value.typeName?]
      | blueprint =>
        obtain ⟨report, hd⟩ := draft_of_handling hw
        have hd' : (w.enter o).generator.draft o.type = _ := hd
        simp only [handle, drafting, Opening.follow, hd, hd']
        rfl
  | _ =>
    simp only [emitVia, opening, isInProgress, Bool.false_eq_true, if_false]
    cases w.generator.handling _ with
    | null => rfl
    | registered e => exact Option.map_id'.symm
    | enumeration => rfl
    | locator => unfold handle locator; cases Value.typeName? _ <;> rfl
    | blueprint => rfl

/-- What can be said of an opening. An expression that is settled at once has nothing to do with the method
it stands in, and then no emitter is in charge; an emitter that is run is the one in charge. -/
inductive Opens (g : Generator) (v : Value) : Opening → Prop
  | settled (r) : (∀ e, r = .ok e → e.isMethodBound = false ∧
      ∀ e' s, ¬ g.registry.InCharge g.options.order v e' s) → Opens g v (.settled r)
  | runs {e g'} : g.isInProgress v = false → g'.options = g.options →
      g'.inProgress = (g.entered v).inProgress →
      g.registry.InCharge g.options.order v e g'.registry → Opens g v (.runs e g')

@[simp] theorem entered_registry (g : Generator) (v : Value) :
    (g.entered v).registry = g.registry := by
  cases v <;> rfl

@[simp] theorem entered_options (g : Generator) (v : Value) :
    (g.entered v).options = g.options := by
  cases v <;> rfl

/-- Every opening is one of these. -/
theorem opens (g : Generator) (v : Value) : g.Opens v (g.opening v) := by
  unfold opening
  by_cases hp : g.isInProgress v
  · rw [if_pos hp]
    exact .settled _ nofun
  · rw [if_neg hp]
    have hp' : g.isInProgress v = false := Bool.eq_false_iff.mpr hp
    -- an emitter in charge would be handling the value, or be drafted for it
    have haside (hr : ∀ e, g.handling v ≠ .registered e) (hb : g.handling v ≠ .blueprint) :
        ∀ e s, ¬ g.registry.InCharge g.options.order v e s := by
      intro e s hcharge
      obtain h | h := handling_of_inCharge hcharge
      · exact hr e h
      · exact hb h
    cases hw : g.handling v with
    | null =>
      refine .settled _ fun e he => ⟨?_, haside (by simp [hw]) (by simp [hw])⟩
      cases he
      rfl
    | registered e =>
      obtain ⟨type, htype, he⟩ := handling_registered hw
      refine .runs hp' (g.entered_options v) rfl ?_
      rw [entered_registry]
      exact .registered htype he
    | enumeration =>
      refine .settled _ fun e he => ⟨?_, haside (by simp [hw]) (by simp [hw])⟩
      cases v <;> cases he
      rfl
    | locator =>
      refine .settled _ fun e he => ⟨?_, haside (by simp [hw]) (by simp [hw])⟩
      unfold locator at he
      split at he <;> cases he
      rfl
    | blueprint =>
      cases v with
      | object o =>
        obtain ⟨hnone, hkind, hbase⟩ := handling_blueprint hw o rfl
        obtain ⟨report, hd⟩ := draft_of_handling hw
        simp only [drafting, hd]
        exact .runs hp' rfl rfl (.drafted hnone hkind hbase)
      | _ => exact .settled _ nofun

theorem opening_null (g : Generator) : g.opening .null = .settled (.ok .null) := rfl

/-- A value whose type has an emitter opens with running it, unless it is in progress. -/
theorem opening_registered {v : Value} {type : TypeName} {e : Emitter}
    (hp : g.isInProgress v = false) (htype : v.typeName? = some type)
    (hf : g.registry.find? type = some e) : g.opening v = .runs e (g.entered v) := by
  unfold opening handling
  rw [hp, htype]
  dsimp only
  rw [hf]
  rfl

/-- An object of a built-in type is refused because it is in progress, or the emitter of its type is run. -/
theorem emitVia_builtin {scope : Scope} {o : Object} {base : String} {w w' : Workshop}
    {r : Except EmitError Expr} {more : List (TypeName × Emitter)}
    (hw : w.generator.registry.entries = Registry.builtin.entries ++ more) {b : Builtin}
    (ho : o.type.name = b.typeName) (h : emitVia run scope (.object o) base w = some (r, w')) :
    (∃ e, r = .error e ∧ w' = w) ∨
      ∃ u, w' = u.left (.object o) ∧ run (.builtin b) scope (.object o) base
        (w.withGenerator (w.generator.entered (.object o))) = some (r, u) := by
  rw [emitVia_eq] at h
  by_cases hp : w.generator.isInProgress (.object o) = true
  · left
    rw [opening, if_pos hp] at h
    cases h
    exact ⟨_, rfl, rfl⟩
  · right
    have hfind : w.generator.registry.find? o.type.name = some (.builtin b) :=
      Registry.find?_isSome_of_append hw (ho ▸ Registry.find?_builtin b)
    rw [opening_registered (Bool.eq_false_iff.mpr hp) rfl hfind] at h
    obtain ⟨⟨r₁, u⟩, hu, heq⟩ := Option.map_eq_some_iff.mp h
    cases heq
    exact ⟨u, rfl, hu⟩

end Generator

end ResourceCode

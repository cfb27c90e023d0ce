import ResourceCode.Proofs.Emission.Opening
import ResourceCode.Proofs.Recipe.Following
import Mathlib.Data.List.Nodup

/-!
Types that emitters are drafted for. Whether the emitter of such a type is there already or has to be drafted first
makes no difference to what is run, so nothing need be known of a generator but its options, the objects in
progress, and that it has drafted emitters for such types only.
-/

namespace ResourceCode

/-- Types that emitters are drafted for: classes that no built-in emitter takes and that are no view-model locators,
no two of them with one name. -/
structure Draftable (types : Descriptor → Prop) : Prop where
  notBuiltin : ∀ {d}, types d → Registry.builtin.find? d.name = none
  notEnumeration : ∀ {d}, types d → d.isEnumeration = false
  notLocator : ∀ {d}, types d → d.derivesLocator = false
  unique : ∀ {d d'}, types d → types d' → d.name = d'.name → d = d'

theorem draftable_of_nodup {types : List Descriptor} (hn : (types.map Descriptor.name).Nodup)
    (htypes : ∀ d ∈ types, Registry.builtin.find? d.name = none ∧ d.isEnumeration = false ∧
      d.derivesLocator = false) : Draftable (· ∈ types) where
  notBuiltin hd := (htypes _ hd).1
  notEnumeration hd := (htypes _ hd).2.1
  notLocator hd := (htypes _ hd).2.2
  unique hd hd' hname := List.inj_on_of_nodup_map hn hd hd' hname

/-- A type whose name is neither that of a built-in emitter nor that of a type that emitters are drafted for. -/
structure Descriptor.IsApart (types : Descriptor → Prop) (d : Descriptor) : Prop where
  notBuiltin : Registry.builtin.find? d.name = none
  notDraftable : ∀ {d'}, types d' → d'.name ≠ d.name

/-- Known options and objects in progress, and emitters drafted for the types only. -/
structure Generator.Drafts (types : Descriptor → Prop) (options : Options)
    (inProgress : List Object) (g : Generator) : Prop where
  options : g.options = options
  inProgress : g.inProgress = inProgress
  registry : g.registry.Within types g.options.order

namespace Generator

variable {types : Descriptor → Prop} {options : Options} {inProgress : List Object} {g : Generator}
  {d : Descriptor}

/-- A generator that has done nothing drafts every type it will. -/
theorem drafts_fresh (types : Descriptor → Prop) (options : Options) :
    ({ options } : Generator).Drafts types options [] :=
  ⟨rfl, rfl, Registry.within_builtin _ _⟩

/-- The emitter found for such a type, if there is one, has been drafted for that very type. -/
theorem Drafts.find?_eq (hg : g.Drafts types options inProgress) (ht : Draftable types)
    (hd : types d) :
    g.registry.find? d.name = none ∨
      g.registry.find? d.name = some (.drafted (.ofDescriptor d g.options.order)) := by
  cases hf : g.registry.find? d.name with
  | none => exact .inl rfl
  | some e =>
    obtain hb | ⟨d', hd', hname, rfl⟩ := hg.registry.find?_eq hf
    · rw [ht.notBuiltin hd] at hb
      cases hb
    · rw [ht.unique hd' hd hname]
      exact .inr rfl

/-- Types that stand apart from the drafted ones have no emitter. -/
theorem Drafts.find?_eq_none (hg : g.Drafts types options inProgress) (hd : d.IsApart types) :
    g.registry.find? d.name = none := by
  cases hf : g.registry.find? d.name with
  | none => rfl
  | some e =>
    obtain hb | ⟨d', hd', hname, -⟩ := hg.registry.find?_eq hf
    · rw [hd.notBuiltin] at hb
      cases hb
    · exact absurd hname (hd.notDraftable hd')

/-- A member of an enumeration that stands apart is settled at once as a field of its type. -/
theorem opening_apart (hg : g.Drafts types options inProgress) (hd : d.IsApart types)
    (name : String) :
    g.opening (.member d name) = .settled (.ok (.field (.type (.ofName d.name)) name)) := by
  have hnone := hg.find?_eq_none hd
  simp [opening, isInProgress, handling, Value.typeName?, hnone, enumMember]

/-- An object in progress is refused as a cycle. -/
theorem opening_inProgress {o : Object} (hg : g.Drafts types options inProgress)
    (ho : o ∈ inProgress) :
    g.opening (.object o) = .settled (.error (.unsupported (.object o) "cyclic reference")) := by
  simp [opening, isInProgress, hg.inProgress, ho]

/-- An object of such a type is emitted by its blueprint, drafted before or now. -/
theorem opening_drafted {o : Object} (hg : g.Drafts types options inProgress)
    (ht : Draftable types) (ho : o ∉ inProgress) (hm : types o.type) :
    ∃ g' : Generator, g'.Drafts types options (o :: inProgress) ∧
      g.opening (.object o) = .runs (.drafted (.ofDescriptor o.type options.order)) g' := by
  have hfind := hg.find?_eq ht hm
  obtain ⟨rfl, rfl, hregistry⟩ := hg
  have hp : g.isInProgress (.object o) = false := decide_eq_false ho
  obtain hnone | hsome := hfind
  · have hw : g.handling (.object o) = .blueprint := by
      simp [handling, Value.typeName?, hnone, ht.notEnumeration hm, ht.notLocator hm]
    obtain ⟨report, hdraft⟩ := draft_of_handling hw
    refine ⟨((g.entered (.object o)).draft o.type).2, ?_, ?_⟩
    · rw [hdraft]
      exact ⟨rfl, rfl, hregistry.drafting hm⟩
    · simp only [opening, hp, hw, drafting, Bool.false_eq_true, if_false]
  · exact ⟨g.entered (.object o), ⟨rfl, rfl, hregistry⟩, opening_registered hp rfl hsome⟩

/-- Leaving an object gives back the generator that entered it. -/
theorem Drafts.left {o : Object} (w : Workshop)
    (hw : w.generator.Drafts types options (o :: inProgress)) :
    (w.left (.object o)).generator.Drafts types options inProgress := by
  refine ⟨hw.options, ?_, hw.registry⟩
  simp only [Workshop.left, Workshop.leave, hw.inProgress, List.erase_cons_head]

end Generator

namespace Opening

variable {clean clean' : Generator → Class → Prop} {Q : Expr → List Statement → Prop}
  {E : EmitError → Prop} {run : Emitter → Emission} {scope : Scope} {v : Value} {base : String}
  {w : Workshop}

/-- What is settled by an expression comes to an end with it and writes nothing. -/
theorem concludes_settled {e : Expr} (h : w.generator.opening v = .settled (.ok e))
    (hw : clean w.generator w.target) (hQ : Q e []) :
    w.Concludes clean Q E (Generator.emitVia run scope v base w) := by
  rw [Generator.emitVia_eq, h]
  exact .inl ⟨e, w, [], rfl, by simp, hw, hQ⟩

/-- What is settled by an error comes to an end with it. -/
theorem concludes_failed {x : EmitError} (h : w.generator.opening v = .settled (.error x))
    (hw : clean w.generator w.target) (hE : E x) :
    w.Concludes clean Q E (Generator.emitVia run scope v base w) := by
  rw [Generator.emitVia_eq, h]
  exact .inr ⟨x, w, rfl, hw, hE⟩

/-- What runs an emitter comes to an end as the emitter does, once the value has been left. -/
theorem concludes_runs {e : Emitter} {g : Generator} (h : w.generator.opening v = .runs e g)
    (hrun : (w.withGenerator g).Concludes clean' Q E (run e scope v base (w.withGenerator g)))
    (hleft : ∀ w' : Workshop, clean' w'.generator w'.target →
      clean (w'.left v).generator (w'.left v).target) :
    w.Concludes clean Q E (Generator.emitVia run scope v base w) := by
  have hemit (r : Except EmitError Expr) (w' : Workshop)
      (hx : run e scope v base (w.withGenerator g) = some (r, w')) :
      Generator.emitVia run scope v base w = some (r, w'.left v) := by
    rw [Generator.emitVia_eq, h, follow, hx]
    rfl
  rcases hrun with ⟨x, w', statements, hx, hbody, hclean, hQ⟩ | ⟨x, w', hx, hclean, hE⟩
  · refine .inl ⟨x, w'.left v, statements, hemit _ w' hx, ?_, hleft w' hclean, hQ⟩
    cases v <;> exact hbody
  · exact .inr ⟨x, w'.left v, hemit _ w' hx, hleft w' hclean, hE⟩

/-- The registered emitter is run on a value that does not count as being in progress. -/
theorem concludes_registered {type : TypeName} {e : Emitter} (hv : ∀ o, v ≠ .object o)
    (htype : v.typeName? = some type) (hfind : w.generator.registry.find? type = some e)
    (hrun : w.Concludes clean Q E (run e scope v base w)) :
    w.Concludes clean Q E (Generator.emitVia run scope v base w) := by
  cases v with
  | object o => exact absurd rfl (hv o)
  | _ =>
    exact concludes_runs (Generator.opening_registered rfl htype hfind) hrun fun _ h => h

section

variable {types : Descriptor → Prop} {order : PropertyOrder} {depth : Nat}

/-- Literals stand for themselves, null as well as those that there is an emitter for. -/
theorem concludes_literal {l : Literal} (hregistry : w.generator.registry.Within types order)
    (hw : clean w.generator w.target) (hQ : Q (.literal l) []) :
    w.Concludes clean Q E
      (Generator.emitVia (Generator.runWithin (depth + 1)) scope (.literal l) base w) := by
  cases hp : l.primitive? with
  | none =>
    obtain rfl : l = .null := by
      cases l with
      | null => rfl
      | _ => cases hp
    exact concludes_settled (Generator.opening_null _) hw hQ
  | some p =>
    have htype : (Value.literal l).typeName? = some p.typeName := by simp [Value.typeName?, hp]
    have hfind := hregistry.find?_of_builtin (Registry.find?_builtin (.primitive p))
    refine concludes_registered (fun o h => by cases h) htype hfind ?_
    have hrecipe : Recipe.primitive p (.literal l) = .done (.literal l) := by
      simp [Recipe.primitive, Value.literal?, hp]
    simp only [Generator.runWithin, Emitter.recipe, Builtin.recipe, hrecipe]
    exact Recipe.concludes_done hw hQ

/-- A list comes to an end as its recipe does. -/
theorem concludes_list {items : List Value} (hregistry : w.generator.registry.Within types order)
    (hrun : w.Concludes clean Q E
      ((Recipe.list w.generator.options (.list items) base).follow
        (Generator.emitVia (Generator.runWithin depth)) (Generator.runWithin depth) scope w)) :
    w.Concludes clean Q E
      (Generator.emitVia (Generator.runWithin (depth + 1)) scope (.list items) base w) := by
  have hfind := hregistry.find?_of_builtin Registry.find?_builtin_list
  exact concludes_registered (fun o h => by cases h) rfl hfind hrun

end

end Opening

end ResourceCode

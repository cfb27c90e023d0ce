import ResourceCode.Proofs.Emission.Coherence
import ResourceCode.Proofs.Emission.Guarding

/-!
Precautions that are never needed. The types of primitives and lists keep their emitters, so only objects are handled
by blueprint or as locators; nothing comes between the decision to draft an emitter and its registration, so that
one is never refused; and primitive emitters only say what they have expected. Whoever is told otherwise by a failed
emission has it from an emitter that was registered from outside and that failed so of its own accord.
-/

namespace ResourceCode

/-- The errors that stand for something that cannot happen. -/
def EmitError.IsPrecaution (e : EmitError) : Prop :=
  (∃ type, e = .duplicateRegistration type) ∨
    ∃ type, e = .unsupportedValue type "no emitter is registered for this type" ∨
      e = .unsupportedValue type "not a literal"

/-- Anything may happen but a failure with this error. -/
def Conditions.sparing (e : EmitError) : Conditions where
  answers _ _ _ := True
  admits x := x ≠ e
  covers _ := True
  delegates _ := True
  covers_read _ _ := trivial
  covers_item _ _ := trivial

/-- The emitter may fail with the error when no emission inside it has. To be told that there is no emitter for a type is
no failure of an emission. -/
def Emitter.Authors (emitter : Emitter) (e : EmitError) : Prop :=
  ∃ options v base,
    ¬ (emitter.recipe options v base).Meets (.sparing e) fun _ => True

namespace Emitter

variable {e : EmitError}

/-- An emitter that does not author the error fails with it only when an emission inside it does. -/
theorem meets_sparing {emitter : Emitter} (h : ¬ emitter.Authors e) (options : Options) (v : Value)
    (base : String) : (emitter.recipe options v base).Meets (.sparing e) fun _ => True := by
  by_contra hnot
  exact h ⟨options, v, base, hnot⟩

theorem lenient_sparing (he : e.IsPrecaution) : (Conditions.sparing e).Lenient := by
  intro type reason hmissing hliteral heq
  obtain ⟨type', rfl⟩ | ⟨type', rfl | rfl⟩ := he
  · cases heq
  · exact hmissing (EmitError.unsupportedValue.inj heq).2
  · exact hliteral (EmitError.unsupportedValue.inj heq).2

/-- A read that fails gives another error. -/
theorem readable_sparing (he : e.IsPrecaution) (type : Descriptor) (o : Object) :
    (Conditions.sparing e).Readable type o := by
  intro property source _ _ heq
  obtain ⟨type', rfl⟩ | ⟨type', rfl | rfl⟩ := he <;> cases heq

/-- Built-in emitters never fail so of their own accord. -/
theorem not_authors_builtin (he : e.IsPrecaution) (b : Builtin) : ¬ (builtin b).Authors e := by
  rintro ⟨options, v, base, hnot⟩
  refine hnot (Builtin.meets (lenient_sparing he) trivial options base b fun o k _ _ => ?_)
  exact ⟨readable_sparing he _ o, fun _ _ _ => readable_sparing he _ _⟩

/-- Blueprints never fail so of their own accord. -/
theorem not_authors_drafted (he : e.IsPrecaution) (type : Descriptor) (order : PropertyOrder) :
    ¬ (drafted (.ofDescriptor type order)).Authors e := by
  rintro ⟨options, v, base, hnot⟩
  exact hnot (Blueprint.meets (lenient_sparing he) trivial options base order fun o _ =>
    readable_sparing he type o)

end Emitter

/-- A course whose own actions keep a property of the generator. -/
def Course.Maintains (P : Generator → Prop) : Course → Prop
  | .done _ => True
  | .look next => ∀ w, (next w).Maintains P
  | .act f _ next => (∀ w, P w.generator → P (f w).generator) ∧ next.Maintains P
  | .recorded _ _ next => ∀ e, (next e).Maintains P
  | .emit _ _ _ next => ∀ r, (next r).Maintains P
  | .run _ _ _ _ next => ∀ r, (next r).Maintains P

/-- Recipes have nothing to do with the generator. -/
theorem Recipe.course_maintains (P : Generator → Prop) (scope : Scope) (recipe : Recipe Expr) :
    (recipe.course scope).Maintains P := by
  induction recipe with
  | done e => trivial
  | fail e => trivial
  | push s next ih => exact ⟨fun _ hw => hw, ih⟩
  | read o property next ih => exact fun w => ih _
  | emit v base next ih => exact ih
  | delegate type v base next ih =>
    simp only [course, Course.Maintains]
    intro w
    split
    · exact ih
    · exact ih _
  | recorded key next ih => exact ih
  | factory stem content root next ih => exact fun w => ⟨fun _ hu => hu, fun r => ⟨fun _ hu => hu, ih _⟩⟩

namespace Practice

open Relation (ReflTransGen)

variable {P : Generator → Prop} {p p' : Position} {top q q' : Request} {around : List Request}

/-- What is done next maintains the property as well. -/
theorem Step.maintains (hP : Generator.Lasting P) (h : recipes.Step p p')
    (hp : p.course.Maintains P ∧ P p.workshop.generator) :
    p'.course.Maintains P ∧ P p'.workshop.generator := by
  obtain ⟨hcourse, hw⟩ := hp
  cases h with
  | look => exact ⟨hcourse _, hw⟩
  | act => exact ⟨hcourse.2, hcourse.1 _ hw⟩
  | recorded => exact ⟨hcourse _, hw⟩
  | emitted hr =>
    rw [emitWithin_recipes] at hr
    exact ⟨hcourse _, Generator.emitWithin_maintains hP _ hw hr⟩
  | ran hr =>
    rw [runWithin_recipes] at hr
    exact ⟨hcourse _, Generator.runWithin_maintains hP _ _ hw hr⟩
  | inside => exact ⟨Recipe.course_maintains P .., hw⟩

/-- So does all that is done later. -/
theorem maintains_of_steps (hP : Generator.Lasting P) (h : ReflTransGen recipes.Step p p')
    (hp : p.course.Maintains P ∧ P p.workshop.generator) :
    p'.course.Maintains P ∧ P p'.workshop.generator := by
  induction h with
  | refl => exact hp
  | tail _ hstep ih => exact hstep.maintains hP ih

/-- A call begins its course with the property that it was made with. -/
theorem Begins.maintains (hP : Generator.Lasting P) (h : recipes.Begins q p)
    (hq : P q.workshop.generator) : p.course.Maintains P ∧ P p.workshop.generator := by
  cases h with
  | runs hopening => exact ⟨Recipe.course_maintains P .., hP.opening hq hopening⟩

/-- A property that nothing can take away holds for every call inside another one. -/
theorem Encloses.maintains (hP : Generator.Lasting P) (h : recipes.Encloses top around q)
    (htop : P top.workshop.generator) : P q.workshop.generator := by
  induction h with
  | self => exact htop
  | inner _ hmakes ih =>
    cases hmakes with
    | calls hbegins hsteps => exact (maintains_of_steps hP hsteps (hbegins.maintains hP ih)).2

end Practice

namespace Generator

/-- Behind the built-in emitters stand accepted and drafted ones. -/
def Holds (accepted : TypeName × Emitter → Prop) (g : Generator) : Prop :=
  ∃ more, g.registry.entries = Registry.builtin.entries ++ more ∧
    ∀ entry ∈ more, accepted entry ∨ ∃ d order, entry.2 = .drafted (.ofDescriptor d order)

variable {accepted : TypeName × Emitter → Prop} {g : Generator} {options : Options}
  {added : List TypeName}

/-- Drafting adds a drafted emitter behind the others. -/
theorem lasting_holds (accepted : TypeName × Emitter → Prop) : Lasting (Holds accepted) where
  draft {g type} := by
    rintro ⟨more, hmore, hentries⟩ hnone
    obtain ⟨report, hdraft⟩ := draft_of_find?_eq_none hnone
    rw [hdraft]
    refine ⟨more ++ [(type.name, .drafted (.ofDescriptor type g.options.order))], ?_, ?_⟩
    · simp [hmore]
    · intro entry hentry
      rcases List.mem_append.mp hentry with h | h
      · exact hentries entry h
      · rw [List.mem_singleton.mp h]
        exact .inr ⟨type, _, rfl⟩
  inProgress _ hg := hg

/-- A precaution that no accepted emitter takes is taken by none that is found. -/
theorem Holds.not_authors {e : EmitError} (he : e.IsPrecaution)
    (hnone : ∀ entry, accepted entry → ¬ entry.2.Authors e) (hg : g.Holds accepted)
    {type : TypeName} {emitter : Emitter} (h : g.registry.find? type = some emitter) :
    ¬ emitter.Authors e := by
  obtain ⟨more, hmore, hentries⟩ := hg
  have hmem := Registry.mem_of_find? h
  rw [hmore] at hmem
  rcases List.mem_append.mp hmem with hbuiltin | hnew
  · obtain ⟨b, -, heq⟩ := List.mem_map.mp hbuiltin
    cases heq
    exact Emitter.not_authors_builtin he b
  · obtain haccepted | ⟨d, order, rfl⟩ := hentries _ hnew
    · exact hnone _ haccepted
    · exact Emitter.not_authors_drafted he d order

/-- The entries of emitters that were registered from outside. -/
def Accepted (added : List TypeName) (g : Generator) (entry : TypeName × Emitter) : Prop :=
  entry.1 ∈ added ∧ g.registry.find? entry.1 = some entry.2

/-- Whatever has become of a generator, it has the built-in emitters and behind them accepted and drafted
ones. -/
theorem Becomes.holds (hg : ({ options } : Generator).Becomes added g) :
    g.Holds (g.Accepted added) := by
  obtain ⟨types, more, haccounts⟩ := hg.coherent
  refine ⟨more, haccounts.entries, fun entry hentry => ?_⟩
  by_cases hadded : entry.1 ∈ added
  · left
    refine ⟨hadded, Registry.find?_of_mem haccounts.nodup ?_⟩
    rw [haccounts.entries]
    exact List.mem_append_right _ hentry
  · right
    have hdrafted : entry ∈ types.map (Descriptor.draftedEntry options.order) := by
      rw [← haccounts.drafted]
      exact List.mem_filter.mpr ⟨hentry, by simpa using hadded⟩
    obtain ⟨d, -, rfl⟩ := List.mem_map.mp hdrafted
    exact ⟨d, _, rfl⟩

/-- When no accepted emitter authors the error, no emission gives it. -/
theorem guards_sparing {e : EmitError} (he : e.IsPrecaution)
    (hnone : ∀ entry, accepted entry → ¬ entry.2.Authors e) :
    Guards (.sparing e) (Holds accepted) where
  inProgress objects hg := (lasting_holds accepted).inProgress objects hg
  settled {g v r} hg _ h := by
    rintro x rfl heq
    obtain ⟨more, hmore, -⟩ := hg
    have hx := opening_error hmore h
    rw [heq] at hx
    obtain ⟨type, rfl⟩ | ⟨type, rfl | rfl⟩ := he <;> simp [EmitError.unsupported] at hx
  runs {g g' v emitter} hg _ h := by
    refine ⟨(lasting_holds accepted).opening hg h, fun base => Emitter.meets_sparing ?_ ..⟩
    have hopens := g.opens v
    rw [h] at hopens
    cases hopens with
    | runs _ _ _ hcharge =>
      generalize g'.registry = s at hcharge
      cases hcharge with
      | registered _ hfind => exact hg.not_authors he hnone hfind
      | drafted => exact Emitter.not_authors_drafted he _ _
  delegated hg _ h _ := Emitter.meets_sparing (hg.not_authors he hnone h) ..

/-- Only objects are handled by blueprint or as locators, and an emitter that is drafted is registered. Without an
emitter being run, only cyclic references and objects of enumerations are refused. -/
structure NeedsNoPrecaution (g : Generator) : Prop where
  handling : ∀ v, g.handling v = .blueprint ∨ g.handling v = .locator → ∃ o, v = .object o
  draft : ∀ o, g.handling (.object o) = .blueprint →
    ((g.entered (.object o)).draft o.type).1 = .ok (.drafted (.ofDescriptor o.type g.options.order))
  opening : ∀ v e, g.opening v = .settled (.error e) →
    e = .unsupported v "cyclic reference" ∨
      e = .unsupported v "enum values must be given as an enum member"

/-- With such emitters nothing but an object can be handled in a way that needs a precaution. -/
theorem Holds.needsNoPrecaution (hg : g.Holds accepted) : g.NeedsNoPrecaution := by
  obtain ⟨more, hmore, -⟩ := hg
  refine ⟨fun v => object_of_handling hmore, fun o h => ?_, fun v e => opening_error hmore⟩
  obtain ⟨report, hdraft⟩ := draft_of_handling h
  rw [hdraft]

/-- Wherever a call stands in an emission and whatever the generator has been through, it needs no precaution, and no
primitive emitter does. A call that fails with one has it from an emitter that was registered from outside. -/
theorem precautions_unneeded (hg : ({ options } : Generator).Becomes added g) {depth : Nat}
    {c : Call} {around : List Request} {q : Request}
    (hq : Practice.recipes.Encloses (g.request depth c) around q) :
    q.workshop.generator.NeedsNoPrecaution ∧
    (∀ p v e, Recipe.primitive p v = .fail e → ¬ e.IsPrecaution) ∧
    ∀ e w, q.outcome = some (.error e, w) → e.IsPrecaution →
      ∃ type ∈ added, ∃ emitter, g.registry.find? type = some emitter ∧ emitter.Authors e := by
  have hholds := hq.maintains (lasting_holds _) hg.holds
  refine ⟨hholds.needsNoPrecaution, ?_, ?_⟩
  · intro p v e h he
    have hmeets := Recipe.meets_primitive (Emitter.lenient_sparing he) p v
    rw [h] at hmeets
    exact hmeets rfl
  · intro e w h he
    by_contra hnone
    push Not at hnone
    have hothers : ∀ entry, g.Accepted added entry → ¬ entry.2.Authors e :=
      fun entry haccepted => hnone entry.1 haccepted.1 entry.2 haccepted.2
    obtain ⟨-, hgrants⟩ := (guards_sparing he hothers).emitWithin q.depth (fun _ _ _ => trivial)
      trivial hholds h
    exact hgrants e rfl rfl

/-- An emitter that leaves its work to one for a type that nobody knows. -/
def relay : Emitter := .forward ⟨"Demo.Gadget"⟩ ⟨"Demo.Missing"⟩

def relayed : Value := .object { cell := 0, type := { name := ⟨"Demo.Gadget"⟩ } }

def relayCall : Call where
  scope := {}
  value := .list [relayed]
  base := "gadgets"
  current := { name := "InitializeResources" }
  target := { name := "Dictionary1" }

/-- The call for the item of the list. -/
def relayRequest (g : Generator) : Request where
  depth := 2
  scope := {}
  value := relayed
  base := g.options.nestedName "gadgets" "0"
  workshop := g.begin relayCall

theorem precautions_unneeded_relay :
    ∃ (g : Generator) (w : Workshop), ({} : Generator).Becomes [⟨"Demo.Gadget"⟩] g ∧
      Practice.recipes.Encloses (g.request 3 relayCall) [g.request 3 relayCall] g.relayRequest ∧
      g.relayRequest.outcome = some (.error (.noEmitter relayed), w) ∧
      (EmitError.noEmitter relayed).IsPrecaution ∧
      g.relayRequest.workshop.generator.NeedsNoPrecaution ∧
      (∀ p v e, Recipe.primitive p v = .fail e → ¬ e.IsPrecaution) ∧
      ∃ type ∈ [⟨"Demo.Gadget"⟩], ∃ emitter, g.registry.find? type = some emitter ∧
        emitter.Authors (.noEmitter relayed) := by
  have hnone : Registry.builtin.find? relay.typeName = none :=
    Option.isNone_iff_eq_none.mp (by decide +kernel)
  have hbecomes := Becomes.same.accepts (register_of_find?_eq_none (g := {}) hnone)
  generalize hg : ({ registry := ⟨Registry.builtin.entries ++ [(relay.typeName, relay)]⟩ } :
    Generator) = g at hbecomes
  have hopening : g.opening relayCall.value = .runs (.builtin .list) g := by
    subst hg
    exact opening_registered rfl rfl (Registry.find?_isSome_of_append rfl Registry.find?_builtin_list)
  have hencloses : Practice.recipes.Encloses (g.request 3 relayCall) [g.request 3 relayCall]
      g.relayRequest :=
    .inner .self (.calls (.runs hopening) .refl)
  have hfails : g.relayRequest.outcome.any (fun x =>
      (EmitError.noEmitter relayed).isFailure x.1) = true := by
    subst hg
    decide +kernel
  obtain ⟨⟨r, w⟩, h, hr⟩ := (Option.any_eq_true _ _).mp hfails
  obtain rfl := EmitError.isFailure_iff.mp hr
  have hprecaution : (EmitError.noEmitter relayed).IsPrecaution := .inr ⟨_, .inl rfl⟩
  obtain ⟨hneeds, hprimitive, hauthor⟩ := precautions_unneeded hbecomes hencloses
  exact ⟨g, w, hbecomes, hencloses, h, hprecaution, hneeds, hprimitive,
    hauthor _ _ h hprecaution⟩

end Generator

end ResourceCode

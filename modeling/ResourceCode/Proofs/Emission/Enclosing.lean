import ResourceCode.Proofs.Emission.Calls
import ResourceCode.Proofs.Emission.History

/-!
Calls of an emission inside each other. The objects in progress are those of the calls that a call stands in, and
no others: a call that returns takes its own object off again, whether it has succeeded or not, and so nothing of it
is left for the calls that come after it. An object is refused as a cyclic reference only inside its own emission.
Emitters have no part in this: it holds of any practice.
-/

namespace ResourceCode

open Relation (ReflTransGen)

/-- An emission that leaves the objects in progress as it finds them. -/
def Emission.Balanced (emission : Emission) : Prop :=
  ∀ ⦃scope v base w r w'⦄, emission scope v base w = some (r, w') →
    w'.generator.inProgress = w.generator.inProgress

/-- By induction on the course: what is not left to a call is left alone. -/
theorem Course.follow_balanced {emit : Emission} {run : Emitter → Emission} (hemit : emit.Balanced)
    (hrun : ∀ e, (run e).Balanced) {course : Course} {w w' : Workshop} {r : Except EmitError Expr}
    (hr : course.follow emit run w = some (r, w')) :
    w'.generator.inProgress = w.generator.inProgress := by
  induction course generalizing w with
  | done r' =>
    cases hr
    rfl
  | look next ih => exact ih w hr
  | act f alone next ih => exact (ih hr).trans (alone w)
  | recorded scope key next ih => exact ih _ hr
  | emit scope v base next ih =>
    obtain ⟨⟨x, w₁⟩, hx, hnext⟩ := Option.bind_eq_some_iff.mp hr
    exact (ih x hnext).trans (hemit hx)
  | run e scope v base next ih =>
    obtain ⟨⟨x, w₁⟩, hx, hnext⟩ := Option.bind_eq_some_iff.mp hr
    exact (ih x hnext).trans (hrun e hx)

namespace Generator

/-- A call takes off what it has put on, when the emitter that it runs leaves the rest alone. -/
theorem emitVia_balanced {run : Emitter → Emission} (hrun : ∀ e, (run e).Balanced) :
    (emitVia run).Balanced := by
  intro scope v base w r w' hr
  rw [emitVia_eq] at hr
  have hopens := w.generator.opens v
  cases hopening : w.generator.opening v with
  | settled r' =>
    rw [hopening] at hr
    cases hr
    rfl
  | runs e g =>
    rw [hopening] at hr hopens
    obtain ⟨⟨r₁, w₁⟩, hw₁, heq⟩ := Option.map_eq_some_iff.mp hr
    cases heq
    cases hopens with
    | runs _ _ hentered _ =>
      have hrun₁ : w₁.generator.inProgress = (w.generator.entered v).inProgress :=
        (hrun e hw₁).trans hentered
      cases v with
      | object o => simp [Workshop.left, Workshop.leave, hrun₁, entered]
      | _ => exact hrun₁

end Generator

namespace Request

/-- The objects that some calls are for. -/
def objects (calls : List Request) : List Object := calls.filterMap (·.value.object?)

theorem mem_objects {around : List Request} {o : Object} : o ∈ objects around ↔ ∃ p ∈ around, p.value = .object o := by
  have hobject (v : Value) : v.object? = some o ↔ v = .object o := by
    cases v <;> simp [Value.object?]
  simp [objects, hobject]

end Request

namespace Practice

open Request (objects)

variable {practice : Practice} {p p' : Position} {q q' top : Request} {around : List Request}

/-- Running an emitter leaves the objects in progress as they were, whatever the practice. -/
theorem runWithin_balanced (practice : Practice) (depth : Nat) (e : Emitter) :
    (practice.runWithin depth e).Balanced := by
  induction depth generalizing e with
  | zero =>
    intro scope v base w r w' hr
    cases hr
  | succ depth ih =>
    intro scope v base w r w' hr
    exact Course.follow_balanced (Generator.emitVia_balanced ih) ih hr

/-- Emitting a value does so as well, on success and on failure. -/
theorem emitWithin_balanced (practice : Practice) (depth : Nat) :
    (practice.emitWithin depth).Balanced :=
  Generator.emitVia_balanced (practice.runWithin_balanced depth)

/-- However far an emitter has come, it finds the same objects in progress. -/
theorem Step.inProgress (h : practice.Step p p') :
    p'.workshop.generator.inProgress = p.workshop.generator.inProgress := by
  cases h with
  | look => rfl
  | @act _ _ alone _ w => exact alone w
  | recorded => rfl
  | emitted hr => exact practice.emitWithin_balanced _ hr
  | ran hr => exact practice.runWithin_balanced _ _ hr
  | inside => rfl

/-- Steps within one run leave the objects in progress alone. -/
theorem inProgress_of_steps (h : ReflTransGen practice.Step p p') :
    p'.workshop.generator.inProgress = p.workshop.generator.inProgress := by
  induction h with
  | refl => rfl
  | tail _ hstep ih => exact hstep.inProgress.trans ih

/-- A call is entered before its emitter begins, and with it the object it is for. -/
theorem Begins.inProgress (h : practice.Begins q p) :
    p.workshop.generator.inProgress = objects [q] ++ q.workshop.generator.inProgress := by
  cases h with
  | @runs depth scope v base w e g hopening =>
    have hopens := w.generator.opens v
    rw [hopening] at hopens
    cases hopens with
    | runs _ _ hentered _ =>
      refine hentered.trans ?_
      cases v <;> rfl

/-- A call that is made has the object of the calling one in progress, and otherwise what that had. -/
theorem Makes.inProgress (h : practice.Makes q q') :
    q'.workshop.generator.inProgress = objects [q] ++ q.workshop.generator.inProgress := by
  cases h with
  | calls hbegins hsteps => exact (inProgress_of_steps hsteps).trans hbegins.inProgress

/-- By induction on the calls that a call stands in: each adds its own object. -/
theorem Encloses.inProgress (h : practice.Encloses top around q) :
    q.workshop.generator.inProgress = objects around ++ top.workshop.generator.inProgress := by
  induction h with
  | self => rfl
  | @inner around q q' _ hmakes ih =>
    rw [hmakes.inProgress, ih, ← List.append_assoc]
    apply congrArg (· ++ top.workshop.generator.inProgress)
    change objects [q] ++ objects around = objects ([q] ++ around)
    exact List.filterMap_append.symm

end Practice

/-- The value is not handled at all. -/
def Request.IsRefused (q : Request) : Prop :=
  q.workshop.generator.opening q.value = .settled (.error (.unsupported q.value "cyclic reference"))

/-- No other failure is mistaken for a refusal. -/
theorem Request.isRefused_iff {q : Request} :
    q.IsRefused ↔ ∃ o, q.value = .object o ∧ o ∈ q.workshop.generator.inProgress := by
  have hin : q.workshop.generator.isInProgress q.value = true ↔
      ∃ o, q.value = .object o ∧ o ∈ q.workshop.generator.inProgress := by
    cases q.value <;> simp [Generator.isInProgress]
  rw [← hin]
  unfold IsRefused Generator.opening
  by_cases hp : q.workshop.generator.isInProgress q.value
  · simp [hp]
  · rw [if_neg hp]
    refine iff_of_false ?_ hp
    cases q.workshop.generator.handling q.value with
    | null => simp
    | registered e => simp
    | enumeration => cases q.value <;> simp [Generator.enumMember, EmitError.unsupported]
    | locator =>
      cases htype : q.value.typeName? <;> simp [Generator.locator, htype, EmitError.unsupported]
    | blueprint => cases q.value <;> simp [Generator.drafting, EmitError.unsupported]

/-- A call that does not stand in another one. -/
def Generator.request (g : Generator) (depth : Nat) (c : Call) : Request :=
  ⟨depth, c.scope, c.value, c.base, g.begin c⟩

/-- What becomes of a generator when emitters are registered and values are emitted, whatever emitters do. -/
inductive Practice.Brings (practice : Practice) (g : Generator) : Generator → Prop
  | same : Brings practice g g
  | accepts {h e h'} : Brings practice g h → h.register e = .ok h' → Brings practice g h'
  | emits {h depth c r w} : Brings practice g h →
      practice.outcome (h.request depth c) = some (r, w) → Brings practice g w.generator
  | runs {h depth e c r w} : Brings practice g h →
      practice.runWithin depth e c.scope c.value c.base (h.begin c) = some (r, w) →
      Brings practice g w.generator

namespace Generator

variable {practice : Practice} {options : Options} {added : List TypeName} {g h : Generator}

/-- Whatever has happened to a generator between calls, it has the same objects in progress as before. -/
theorem inProgress_of_brings (hh : practice.Brings g h) : h.inProgress = g.inProgress := by
  induction hh with
  | same => rfl
  | accepts _ hr ih =>
    obtain ⟨-, rfl⟩ := register_eq_ok hr
    exact ih
  | emits _ hr ih => exact (practice.emitWithin_balanced _ hr).trans ih
  | runs _ hr ih => exact (practice.runWithin_balanced _ _ hr).trans ih

/-- What becomes of a generator whose emitters follow their recipes is a case of this. -/
theorem Becomes.brings (hh : g.Becomes added h) : Practice.recipes.Brings g h := by
  induction hh with
  | same => exact .same
  | accepts _ hr ih => exact ih.accepts hr
  | refuses _ _ ih => exact ih
  | @emits _ h depth c r w _ hr ih =>
    have hr' : Practice.recipes.outcome (h.request depth c) = some (r, w) := by
      rw [Practice.outcome_recipes]
      exact hr
    exact ih.emits hr'
  | runs _ hr ih =>
    rw [← Practice.runWithin_recipes] at hr
    exact ih.runs hr

/-- Whatever emitters do and whatever a generator has been through, no object is in progress when it is called. A call
inside its call finds the objects of the calls it stands in and no others, is refused exactly when it is for one of
them, and leaves them as it finds them however it ends. -/
theorem inProgress_enclosing (hg : practice.Brings { options } g) {depth : Nat} {c : Call}
    {around : List Request} {q : Request}
    (hq : practice.Encloses (g.request depth c) around q) :
    g.inProgress = [] ∧
      q.workshop.generator.inProgress = Request.objects around ∧
      (q.IsRefused ↔ ∃ o, q.value = .object o ∧ ∃ p ∈ around, p.value = .object o) ∧
      ∀ r w, practice.outcome q = some (r, w) →
        w.generator.inProgress = q.workshop.generator.inProgress := by
  have hnone : g.inProgress = [] := inProgress_of_brings hg
  have hobjects : q.workshop.generator.inProgress = Request.objects around := by
    have hin := hq.inProgress
    rw [show (g.request depth c).workshop.generator.inProgress = [] from hnone] at hin
    rw [hin, List.append_nil]
  refine ⟨hnone, hobjects, ?_, fun r w hw => practice.emitWithin_balanced q.depth hw⟩
  rw [Request.isRefused_iff, hobjects]
  simp only [Request.mem_objects]

/-- With one more emitter, if it is accepted, and one more method. -/
def meddled (w : Workshop) : Workshop where
  generator :=
    match w.generator.register (.fixed ⟨"Demo.Widget"⟩ .null) with
    | .ok g => g
    | .error _ => w.generator
  current := w.current
  target := w.target.add { name := "Help" }

theorem inProgress_meddled (w : Workshop) :
    (meddled w).generator.inProgress = w.generator.inProgress := by
  unfold meddled
  cases hr : w.generator.register (.fixed ⟨"Demo.Widget"⟩ .null) with
  | error x => rfl
  | ok g =>
    obtain ⟨-, rfl⟩ := register_eq_ok hr
    rfl

/-- The emitter for gadgets registers another one, adds a method, has its own value emitted once more, and goes on when
that fails. -/
def stubborn : Practice := fun e options scope v base =>
  if e.typeName = ⟨"Demo.Gadget"⟩ then
    .act meddled inProgress_meddled (.emit scope v base fun _ => .done (.ok .null))
  else Practice.recipes e options scope v base

def gadgetCall : Call where
  scope := {}
  value := .object { cell := 0, type := { name := ⟨"Demo.Gadget"⟩ } }
  base := "gadget"
  current := { name := "InitializeResources" }
  target := { name := "Dictionary1" }

/-- The call is made twice: the first one succeeds although it is refused in itself, and nothing of it is left for
the second one. -/
theorem inProgress_enclosing_stubborn :
    ∃ (g : Generator) (e : Expr) (w : Workshop) (q : Request), stubborn.Brings {} g ∧
      stubborn.outcome (g.request 1 gadgetCall) = some (.ok e, w) ∧
      w.generator.registry.contains ⟨"Demo.Widget"⟩ = true ∧ w.target.hasMethod "Help" = true ∧
      stubborn.Encloses (w.generator.request 1 gadgetCall) [w.generator.request 1 gadgetCall] q ∧
      w.generator.inProgress = [] ∧
      q.workshop.generator.inProgress = Request.objects [w.generator.request 1 gadgetCall] ∧
      (q.IsRefused ↔ ∃ o, q.value = .object o ∧
        ∃ p ∈ [w.generator.request 1 gadgetCall], p.value = .object o) ∧
      ∀ r u, stubborn.outcome q = some (r, u) →
        u.generator.inProgress = q.workshop.generator.inProgress := by
  have hnone : Registry.builtin.find? (Emitter.fixed ⟨"Demo.Gadget"⟩ .null).typeName = none :=
    Option.isNone_iff_eq_none.mp (by decide +kernel)
  have hfirst : stubborn.Brings {} _ := .accepts .same (register_of_find?_eq_none (g := {}) hnone)
  generalize hg : ({ registry := ⟨Registry.builtin.entries ++ [(_, Emitter.fixed ⟨"Demo.Gadget"⟩ .null)]⟩ } :
    Generator) = g at hfirst
  have hok : (stubborn.outcome (g.request 1 gadgetCall)).any (fun x => x.1.isOk &&
      (x.2.generator.registry.contains ⟨"Demo.Widget"⟩ && (x.2.target.hasMethod "Help" &&
        (x.2.generator.registry.find? ⟨"Demo.Gadget"⟩).any (·.typeName == ⟨"Demo.Gadget"⟩)))) = true := by
    subst hg
    decide +kernel
  obtain ⟨⟨_ | e, w⟩, hemit, hr⟩ := (Option.any_eq_true _ _).mp hok
  · cases hr
  simp only [Bool.and_eq_true] at hr
  obtain ⟨-, hwidget, hhelp, hgadget⟩ := hr
  obtain ⟨emitter, hfind, htype⟩ := (Option.any_eq_true _ _).mp hgadget
  have hlast := hfirst.emits hemit
  have hopening : w.generator.opening gadgetCall.value =
      .runs emitter (w.generator.entered gadgetCall.value) := by
    refine opening_registered ?_ rfl hfind
    simp [isInProgress, gadgetCall, inProgress_of_brings hlast]
  -- where its own value is emitted once more
  let again : Workshop :=
    meddled ((w.generator.begin gadgetCall).withGenerator (w.generator.entered gadgetCall.value))
  let course := Course.emit gadgetCall.scope gadgetCall.value gadgetCall.base fun _ => .done (.ok .null)
  have hcourse (options : Options) :
      stubborn emitter options gadgetCall.scope gadgetCall.value gadgetCall.base =
        .act meddled inProgress_meddled course :=
    if_pos (eq_of_beq htype)
  have hmakes : stubborn.Makes (w.generator.request 1 gadgetCall)
      ⟨0, gadgetCall.scope, gadgetCall.value, gadgetCall.base, again⟩ := by
    have hbegins : stubborn.Begins (w.generator.request 1 gadgetCall) _ := .runs hopening
    rw [hcourse] at hbegins
    exact .calls hbegins (.single .act)
  have hencloses := Practice.Encloses.inner .self hmakes
  exact ⟨g, e, w, _, hfirst, hemit, hwidget, hhelp, hencloses, inProgress_enclosing hlast hencloses⟩

end Generator

end ResourceCode

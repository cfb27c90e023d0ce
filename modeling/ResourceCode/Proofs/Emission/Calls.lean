import ResourceCode.Proofs.Emission.Opening
import Mathlib.Logic.Relation

/-!
What emitters do, and the calls that they make. A recipe is one way to say what an emitter does, and a narrow one: an
emitter may just as well register others, add methods to the class or go on in another method, as long as it leaves the
objects in progress to the calls that it makes. Following a recipe is the practice of the emitters that are built in,
drafted, or written as a recipe; what holds of any practice holds of this one.
-/

namespace ResourceCode

open Relation (ReflTransGen)

/-- What an emitter does. It looks at the workshop and changes it as it likes, as long as it leaves the objects in
progress alone; it looks up recorded expressions, has values emitted and runs emitters. -/
inductive Course where
  | done (r : Except EmitError Expr)
  | look (next : Workshop → Course)
  | act (f : Workshop → Workshop)
      (alone : ∀ w, (f w).generator.inProgress = w.generator.inProgress) (next : Course)
  | recorded (scope : Scope) (key : String) (next : Option Expr → Course)
  | emit (scope : Scope) (v : Value) (base : String) (next : Except EmitError Expr → Course)
  | run (e : Emitter) (scope : Scope) (v : Value) (base : String)
      (next : Except EmitError Expr → Course)

/-- Follows a course: `emit` emits values, `run` runs an emitter. -/
def Course.follow (emit : Emission) (run : Emitter → Emission) :
    Course → Workshop → Option (Outcome Expr)
  | .done r, w => some (r, w)
  | .look next, w => (next w).follow emit run w
  | .act f _ next, w => next.follow emit run (f w)
  | .recorded scope key next, w => (next (scope.recorded? key)).follow emit run w
  | .emit scope v base next, w =>
    (emit scope v base w).bind fun (r, w) => (next r).follow emit run w
  | .run e scope v base next, w =>
    (run e scope v base w).bind fun (r, w) => (next r).follow emit run w

/-- What each emitter does with a value under the name of a local. -/
abbrev Practice := Emitter → Options → Scope → Value → String → Course

namespace Practice

/-- Runs an emitter on a value; inside each other emitters run at most `depth` deep. -/
def runWithin (practice : Practice) : Nat → Emitter → Emission
  | 0, _ => fun _ _ _ _ => none
  | depth + 1, e => fun scope v base w =>
    (practice e w.generator.options scope v base).follow
      (Generator.emitVia (practice.runWithin depth)) (practice.runWithin depth) w

def emitWithin (practice : Practice) (depth : Nat) : Emission :=
  Generator.emitVia (practice.runWithin depth)

end Practice

/-- A recipe as a course. A factory is the current method for as long as its content is emitted. -/
def Recipe.course (scope : Scope) : Recipe Expr → Course
  | .done e => .done (.ok e)
  | .fail e => .done (.error e)
  | .push s next => .act (·.push s) (fun _ => rfl) (next.course scope)
  | .read o property next => .look fun w =>
    (next (scope.heap.get o property w.generator.inProgress.length)).course scope
  | .emit v base next => .emit scope v base fun r => (next r).course scope
  | .delegate type v base next => .look fun w =>
    match w.generator.registry.find? type with
    | some e => .run e scope v base fun r => (next r).course scope
    | none => (next (.error (.unsupported v "no emitter is registered for this type"))).course scope
  | .recorded key next => .recorded scope key fun e => (next e).course scope
  | .factory stem content root next => .look fun w =>
    let name := w.target.freeName w.current.name stem
    .act (fun u => { u with current := .factory name }) (fun _ => rfl)
      (.emit { scope with nested := true } content root fun r =>
        .act (fun u =>
            { u with
              current := w.current
              target := match r with
                | .ok e => u.target.add (u.current.push (.ret (some e)))
                | .error _ => u.target })
          (fun _ => rfl) ((next (r.map fun _ => name)).course scope))

/-- The practice of following recipes. -/
def Practice.recipes : Practice := fun e options scope v base =>
  (e.recipe options v base).course scope

section

variable {scope : Scope}

/-- Following the course of a recipe is following the recipe. -/
theorem Recipe.follow_course (emit : Emission) (run : Emitter → Emission) (recipe : Recipe Expr)
    (w : Workshop) : (recipe.course scope).follow emit run w = recipe.follow emit run scope w := by
  induction recipe generalizing w with
  | done e => rfl
  | fail e => rfl
  | push s next ih => exact ih _
  | read o property next ih => exact ih _ _
  | emit v base next ih =>
    exact Option.bind_congr fun x _ => ih x.1 x.2
  | delegate type v base next ih =>
    simp only [course, Course.follow, follow]
    cases w.generator.registry.find? type with
    | some e => exact Option.bind_congr fun x _ => ih x.1 x.2
    | none => exact ih _ _
  | recorded key next ih => exact ih _ _
  | factory stem content root next ih =>
    simp only [course, Course.follow, follow, Emission.inMethod, Option.bind_map]
    refine Option.bind_congr fun x _ => ?_
    obtain ⟨r, u⟩ := x
    cases r <;> exact ih _ _

namespace Practice

/-- Practised by their recipes, emitters run as they always do. -/
theorem runWithin_recipes (depth : Nat) : recipes.runWithin depth = Generator.runWithin depth := by
  induction depth with
  | zero => rfl
  | succ depth ih =>
    funext e scope v base w
    rw [runWithin, ih]
    exact Recipe.follow_course _ _ _ _

/-- Emitters follow their recipes. -/
theorem emitWithin_recipes (depth : Nat) :
    recipes.emitWithin depth = Generator.emitWithin depth := by
  rw [emitWithin, runWithin_recipes, Generator.emitWithin]

end Practice

end

/-- A call of an emission, with the workshop it finds. Emitters may run `depth` deep inside it. -/
structure Request where
  depth : Nat
  scope : Scope
  value : Value
  base : String
  workshop : Workshop

/-- How far an emitter has come: what it does from here on, in which workshop, and how deep other emitters may run
inside it. -/
structure Position where
  depth : Nat
  course : Course
  workshop : Workshop

/-- What the call gives when emitters follow their recipes. -/
def Request.outcome (q : Request) : Option (Outcome Expr) :=
  Generator.emitWithin q.depth q.scope q.value q.base q.workshop

namespace Practice

/-- What a call gives. -/
def outcome (practice : Practice) (q : Request) : Option (Outcome Expr) :=
  practice.emitWithin q.depth q.scope q.value q.base q.workshop

/-- A request has the same outcome when emitters are practised by their recipes. -/
theorem outcome_recipes (q : Request) : recipes.outcome q = q.outcome := by
  rw [outcome, emitWithin_recipes, Request.outcome]

/-- What a call or another emitter gives makes no difference to which steps come after it. An emitter that is run
directly belongs to the same call. -/
inductive Step (practice : Practice) : Position → Position → Prop
  | look {depth next w} : Step practice ⟨depth, .look next, w⟩ ⟨depth, next w, w⟩
  | act {depth f alone next w} : Step practice ⟨depth, .act f alone next, w⟩ ⟨depth, next, f w⟩
  | recorded {depth scope key next w} :
      Step practice ⟨depth, .recorded scope key next, w⟩ ⟨depth, next (scope.recorded? key), w⟩
  | emitted {depth scope v base next w r w'} :
      practice.emitWithin depth scope v base w = some (r, w') →
      Step practice ⟨depth, .emit scope v base next, w⟩ ⟨depth, next r, w'⟩
  | ran {depth e scope v base next w r w'} :
      practice.runWithin depth e scope v base w = some (r, w') →
      Step practice ⟨depth, .run e scope v base next, w⟩ ⟨depth, next r, w'⟩
  | inside {depth e scope v base next w} :
      Step practice ⟨depth + 1, .run e scope v base next, w⟩
        ⟨depth, practice e w.generator.options scope v base, w⟩

/-- Where the emitter that a call runs begins. -/
inductive Begins (practice : Practice) : Request → Position → Prop
  | runs {depth scope v base w e g} : w.generator.opening v = .runs e g →
      Begins practice ⟨depth + 1, scope, v, base, w⟩
        ⟨depth, practice e g.options scope v base, w.withGenerator g⟩

/-- One call makes another when its emitter comes to it. -/
inductive Makes (practice : Practice) : Request → Request → Prop
  | calls {q p depth scope v base next w} : practice.Begins q p →
      ReflTransGen practice.Step p ⟨depth, .emit scope v base next, w⟩ →
      Makes practice q ⟨depth, scope, v, base, w⟩

/-- A call somewhere inside another one, with the calls that it stands in, the innermost first. -/
inductive Encloses (practice : Practice) (top : Request) : List Request → Request → Prop
  | self : Encloses practice top [] top
  | inner {around q q'} : Encloses practice top around q → practice.Makes q q' →
      Encloses practice top (q :: around) q'

/-- A key that is looked up from a position on, by the emitter itself or in a call that it makes. -/
inductive LooksUp (practice : Practice) : Position → String → Prop
  | here {depth scope key next w} : LooksUp practice ⟨depth, .recorded scope key next, w⟩ key
  | later {p p' key} : practice.Step p p' → LooksUp practice p' key → LooksUp practice p key
  | call {depth scope v base next w p key} : practice.Begins ⟨depth, scope, v, base, w⟩ p →
      LooksUp practice p key → LooksUp practice ⟨depth, .emit scope v base next, w⟩ key

end Practice

/-- An expression that the resources hold under some key. -/
def Scope.Records (s : Scope) (e : Expr) : Prop :=
  ∃ key, s.resources.bind (·.find? key) = some e

namespace Request

/-- A key that is looked up in the course of a call. -/
def LooksUp (q : Request) (key : String) : Prop :=
  ∃ p, Practice.recipes.Begins q p ∧ Practice.recipes.LooksUp p key

/-- What is looked up in a call is looked up from where it is made. -/
theorem LooksUp.made {q : Request} {key : String} (h : q.LooksUp key)
    (next : Except EmitError Expr → Course) :
    Practice.recipes.LooksUp ⟨q.depth, .emit q.scope q.value q.base next, q.workshop⟩ key := by
  obtain ⟨p, hbegins, h⟩ := h
  exact .call hbegins h

/-- An expression that is recorded under a key that the call looks up. -/
def Recalls (q : Request) (e : Expr) : Prop :=
  ∃ key, q.LooksUp key ∧ q.scope.resources.bind (·.find? key) = some e

end Request

/-- With other resources. -/
def Scope.withResources (s : Scope) (resources : Option Resources) : Scope := { s with resources }

/-- Resources that are the same under certain keys. -/
def Scope.AgreesOn (keys : String → Prop) (s : Scope) (resources : Option Resources) : Prop :=
  ∀ key, keys key → resources.bind (·.find? key) = s.resources.bind (·.find? key)

section

variable {keys : String → Prop} {scope : Scope} {resources : Option Resources} {depth : Nat}

/-- Scopes that agree on a set of keys give the same answer for each of them. -/
theorem Scope.AgreesOn.recorded? (h : scope.AgreesOn keys resources) {key : String}
    (hkey : keys key) : (scope.withResources resources).recorded? key = scope.recorded? key := by
  unfold Scope.recorded?
  rw [← h key hkey]
  rfl

/-- An emission to which only the recorded expressions matter that it looks up. -/
def Emission.Minds (emission : Emission) (depth : Nat) : Prop :=
  ∀ ⦃scope v base w keys resources⦄, scope.AgreesOn keys resources →
    (∀ key, (⟨depth, scope, v, base, w⟩ : Request).LooksUp key → keys key) →
    emission (scope.withResources resources) v base w = emission scope v base w

/-- A way to run emitters to which only the recorded expressions matter that they look up. -/
def Emitter.Minds (run : Emitter → Emission) (depth : Nat) : Prop :=
  ∀ ⦃e scope v base w keys resources⦄, scope.AgreesOn keys resources →
    (∀ inner key, depth = inner + 1 → Practice.recipes.LooksUp
      ⟨inner, Practice.recipes e w.generator.options scope v base, w⟩ key → keys key) →
    run e (scope.withResources resources) v base w = run e scope v base w

open Generator

/-- By induction on the recipe: what is looked up later on is looked up from here. -/
theorem Recipe.follow_withResources (hemit : (emitWithin depth).Minds depth)
    (hrun : Emitter.Minds (runWithin depth) depth) (hagrees : scope.AgreesOn keys resources)
    {recipe : Recipe Expr} {w : Workshop}
    (hkeys : ∀ key, Practice.recipes.LooksUp ⟨depth, recipe.course scope, w⟩ key → keys key) :
    recipe.follow (emitWithin depth) (runWithin depth) (scope.withResources resources) w =
      recipe.follow (emitWithin depth) (runWithin depth) scope w := by
  induction recipe generalizing w with
  | done e => rfl
  | fail e => rfl
  | push s next ih => exact ih fun key h => hkeys key (.later .act h)
  | read o property next ih => exact ih _ fun key h => hkeys key (.later .look h)
  | emit v base next ih =>
    rw [follow, follow, hemit hagrees fun key h => hkeys key (h.made _)]
    refine Option.bind_congr fun x hx => ih x.1 fun key h => hkeys key (.later (.emitted ?_) h)
    rwa [Practice.emitWithin_recipes]
  | delegate type v base next ih =>
    simp only [course] at hkeys
    simp only [follow]
    cases hfind : w.generator.registry.find? type with
    | some e =>
      have hcourse (key : String) (h : Practice.recipes.LooksUp
          ⟨depth, .run e scope v base fun r => (next r).course scope, w⟩ key) : keys key := by
        refine hkeys key (.later .look ?_)
        rwa [hfind]
      have hsame : runWithin depth e (scope.withResources resources) v base w =
          runWithin depth e scope v base w :=
        hrun hagrees fun inner key hdepth h => by
          subst hdepth
          exact hcourse key (.later .inside h)
      dsimp only
      rw [hsame]
      refine Option.bind_congr fun x hx => ih x.1 fun key h => hcourse key (.later (.ran ?_) h)
      rwa [Practice.runWithin_recipes]
    | none =>
      refine ih _ fun key h => hkeys key (.later .look ?_)
      rwa [hfind]
  | recorded key next ih =>
    rw [follow, follow, hagrees.recorded? (hkeys key .here)]
    exact ih _ fun key' h => hkeys key' (.later .recorded h)
  | factory stem content root next ih =>
    have hcourse (key : String) h := hkeys key (.later .look (.later .act h))
    let inside : Workshop := { w with current := .factory (w.target.freeName w.current.name stem) }
    have hsame : emitWithin depth (Scope.withResources { scope with nested := true } resources)
        content root inside = emitWithin depth { scope with nested := true } content root inside :=
      hemit hagrees fun key h => hcourse key (h.made _)
    simp only [follow, Emission.inMethod, Option.bind_map]
    -- the factory is opened after the resources have been put in, and the order makes no difference
    change Option.bind (emitWithin depth (Scope.withResources { scope with nested := true } resources)
      content root inside) _ = _
    rw [hsame]
    refine Option.bind_congr fun x hx => ?_
    obtain ⟨r, u⟩ := x
    have hemitted : Practice.recipes.emitWithin depth { scope with nested := true } content root inside =
        some (r, u) := by
      rwa [Practice.emitWithin_recipes]
    have hlater (key : String) h := hcourse key (.later (.emitted hemitted) (.later .act h))
    cases r <;> exact ih _ hlater

/-- Emitting a value minds only the keys that are looked up during it, when running its emitter does. -/
theorem Generator.emitVia_minds {run : Emitter → Emission} (hrun : Emitter.Minds run depth) :
    (emitVia run).Minds depth := by
  intro scope v base w keys resources hagrees hkeys
  rw [emitVia_eq, emitVia_eq]
  cases hopening : w.generator.opening v with
  | settled r => rfl
  | runs e g =>
    have hsame : run e (scope.withResources resources) v base (w.withGenerator g) =
        run e scope v base (w.withGenerator g) :=
      hrun hagrees fun inner key hdepth h => by
        subst hdepth
        exact hkeys key ⟨_, .runs hopening, h⟩
    rw [Opening.follow, Opening.follow, hsame]

/-- Running an emitter minds only the keys that are looked up during it, at any depth. -/
theorem Generator.runWithin_minds (depth : Nat) : Emitter.Minds (runWithin depth) depth := by
  induction depth with
  | zero => exact fun _ _ _ _ _ _ _ _ _ => rfl
  | succ depth ih =>
    intro e scope v base w keys resources hagrees hkeys
    exact Recipe.follow_withResources (emitVia_minds ih) ih hagrees fun key => hkeys depth key rfl

/-- Which expressions are recorded matters to an emission only under the keys that it looks up. -/
theorem Generator.emitWithin_minds (depth : Nat) : (emitWithin depth).Minds depth :=
  emitVia_minds (runWithin_minds depth)

end

/-- Resources can be reduced to certain keys. -/
theorem Resources.exists_only (keys : String → Prop) (r : Resources) :
    ∃ r' : Resources, ∀ key e, r'.find? key = some e ↔ keys key ∧ r.find? key = some e := by
  classical
  refine ⟨⟨r.entries.filter fun entry => keys entry.1⟩, fun key e => ?_⟩
  unfold find?
  induction r.entries with
  | nil => simp
  | cons entry rest ih =>
    obtain ⟨name, recorded⟩ := entry
    by_cases hname : key = name
    · subst hname
      by_cases hkey : keys key
      · simp [hkey]
      · simpa [hkey] using ih
    · have hskip : (key == name) = false := beq_false_of_ne hname
      by_cases hkey : keys name
      · simpa [hkey, List.lookup_cons, hskip] using ih
      · simpa [hkey, List.lookup_cons, hskip] using ih

/-- A call might as well have found only those resources that it recalls. -/
theorem Request.exists_resources (q : Request) :
    ∃ resources, (⟨q.depth, q.scope.withResources resources, q.value, q.base, q.workshop⟩ :
        Request).outcome = q.outcome ∧
      ∀ e, (q.scope.withResources resources).Records e → q.Recalls e := by
  cases hresources : q.scope.resources with
  | none =>
    have hagrees : q.scope.AgreesOn q.LooksUp none := fun key _ => by rw [hresources]
    refine ⟨none, Generator.emitWithin_minds q.depth hagrees fun _ h => h, ?_⟩
    rintro e ⟨key, he⟩
    cases he
  | some r =>
    obtain ⟨r', hr'⟩ := r.exists_only q.LooksUp
    have hagrees : q.scope.AgreesOn q.LooksUp (some r') := fun key hkey => by
      rw [hresources]
      exact Option.ext fun e => (hr' key e).trans (and_iff_right hkey)
    refine ⟨some r', Generator.emitWithin_minds q.depth hagrees fun _ h => h, ?_⟩
    rintro e ⟨key, he⟩
    obtain ⟨hkey, hfind⟩ := (hr' key e).mp he
    exact ⟨key, hkey, by rwa [hresources]⟩

end ResourceCode

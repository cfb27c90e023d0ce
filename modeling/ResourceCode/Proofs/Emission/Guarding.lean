import ResourceCode.Proofs.Emission.Enclosing
import ResourceCode.Proofs.Recipe.Conditions

/-!
Conditions on a whole emission. When every emitter that a generator puts in charge of a value follows a recipe that
meets the conditions, and what is settled without one is admitted too, every failure is admitted, however deep
it was made.
-/

namespace ResourceCode

namespace Generator

variable {g : Generator} {v : Value} {more : List (TypeName × Emitter)}

/-- Only objects are handled as locators or by blueprint: all else has an emitter from the start or is a member of an
enumeration. -/
theorem object_of_handling (hr : g.registry.entries = Registry.builtin.entries ++ more)
    (h : g.handling v = .blueprint ∨ g.handling v = .locator) : ∃ o, v = .object o := by
  have hregistered {type : TypeName} {e : Emitter} (htype : v.typeName? = some type)
      (hfind : Registry.builtin.find? type = some e) : g.handling v = .registered e := by
    unfold handling
    rw [htype]
    dsimp only
    rw [Registry.find?_isSome_of_append hr hfind]
  cases v with
  | object o => exact ⟨o, rfl⟩
  | literal l =>
    cases htype : (Value.literal l).typeName? with
    | none => simp [handling, htype] at h
    | some type =>
      obtain ⟨p, hfind⟩ := Registry.find?_builtin_literal htype
      simp [hregistered htype hfind] at h
  | list items => simp [hregistered rfl Registry.find?_builtin_list] at h
  | member type name =>
    simp only [handling, Value.typeName?] at h
    cases hfind : g.registry.find? type.name <;> simp [hfind] at h

/-- An emission fails without an emitter being run only for an object in progress, or for one whose type is an
enumeration. -/
theorem opening_error (hr : g.registry.entries = Registry.builtin.entries ++ more) {e : EmitError}
    (h : g.opening v = .settled (.error e)) :
    e = .unsupported v "cyclic reference" ∨
      e = .unsupported v "enum values must be given as an enum member" := by
  unfold opening at h
  split at h
  · cases h
    exact .inl rfl
  · right
    cases hw : g.handling v with
    | null => simp [hw] at h
    | registered e' => simp [hw] at h
    | enumeration =>
      rw [hw] at h
      cases v <;> cases h <;> rfl
    | locator =>
      obtain ⟨o, rfl⟩ := object_of_handling hr (.inr hw)
      simp [hw, locator, Value.typeName?] at h
    | blueprint =>
      obtain ⟨o, rfl⟩ := object_of_handling hr (.inl hw)
      simp [hw, drafting] at h

end Generator

/-- What reads from a heap answer is what the conditions expect. -/
def Conditions.Expects (c : Conditions) (heap : Heap) : Prop :=
  ∀ o property reading, c.answers o property (heap.get o property reading)

/-- Generators with a property, under which the conditions are met by whatever emitter is put in charge. The property
outlives the beginning of an emission. -/
structure Generator.Guards (c : Conditions) (P : Generator → Prop) : Prop where
  inProgress : ∀ {g : Generator} (objects : List Object), P g → P { g with inProgress := objects }
  settled : ∀ {g : Generator} {v r}, P g → c.covers v → g.opening v = .settled r → c.Grants r
  runs : ∀ {g g' : Generator} {v e}, P g → c.covers v → g.opening v = .runs e g' →
    P g' ∧ ∀ base, (e.recipe g'.options v base).Meets c fun _ => True
  delegated : ∀ {g : Generator} {v e type}, P g → c.delegates v → g.registry.find? type = some e →
    ∀ base, (e.recipe g.options v base).Meets c fun _ => True

/-- An emission that fails only as admitted. -/
def Emission.Heeds (c : Conditions) (P : Generator → Prop) (emission : Emission) : Prop :=
  ∀ ⦃scope v base w r w'⦄, c.Expects scope.heap → c.covers v → P w.generator →
    emission scope v base w = some (r, w') → P w'.generator ∧ c.Grants r

/-- A way to run emitters that fails only as admitted, when their recipes do. -/
def Emitter.Heeds (c : Conditions) (P : Generator → Prop) (run : Emitter → Emission) : Prop :=
  ∀ ⦃e scope v base w r w'⦄, c.Expects scope.heap →
    (e.recipe w.generator.options v base).Meets c (fun _ => True) → P w.generator →
    run e scope v base w = some (r, w') → P w'.generator ∧ c.Grants r

section

variable {c : Conditions} {P : Generator → Prop} {emit : Emission} {run : Emitter → Emission}

/-- In a factory an emission fails as it does in any other method. -/
theorem Emission.Heeds.inMethod (h : emit.Heeds c P) (m : Method) :
    (emit.inMethod m).Heeds c P := by
  intro scope v base w r w' hheap hv hw hr
  obtain ⟨⟨r₁, w₁⟩, hw₁, heq⟩ := Option.map_eq_some_iff.mp hr
  obtain ⟨hend, hgrants⟩ :=
    @h { scope with nested := true } v base { w with current := m } r₁ w₁ hheap hv hw hw₁
  cases r₁ <;> cases heq <;> exact ⟨hend, hgrants⟩

/-- By induction on the recipe, which meets the conditions whatever nested emissions give. -/
theorem Recipe.Meets.follow {α : Type} (hguards : Generator.Guards c P) (hemit : emit.Heeds c P)
    (hrun : Emitter.Heeds c P run) {scope : Scope} (hheap : c.Expects scope.heap)
    {recipe : Recipe α} {Q : α → Prop} (hm : recipe.Meets c Q) {w w' : Workshop}
    (hw : P w.generator) {r : Except EmitError α}
    (hr : recipe.follow emit run scope w = some (r, w')) : P w'.generator ∧ c.Grants r := by
  induction recipe generalizing w with
  | done a =>
    cases hr
    exact ⟨hw, nofun⟩
  | fail e =>
    cases hr
    refine ⟨hw, fun e' he => ?_⟩
    cases he
    exact hm
  | push s next ih => exact ih hm (w := w.push s) hw hr
  | read o property next ih => exact ih _ (hm _ (hheap ..)) hw hr
  | emit v base next ih =>
    obtain ⟨⟨x, w₁⟩, hx, hnext⟩ := Option.bind_eq_some_iff.mp hr
    obtain ⟨hw₁, hgrants⟩ := hemit hheap hm.1 hw hx
    exact ih x (hm.2 x hgrants) hw₁ hnext
  | delegate type v base next ih =>
    rw [Recipe.follow] at hr
    -- another emitter is run, or the recipe is told that there is none
    split at hr
    · rename_i e hfind
      obtain ⟨⟨x, w₁⟩, hx, hnext⟩ := Option.bind_eq_some_iff.mp hr
      obtain ⟨hw₁, hgrants⟩ := hrun hheap (hguards.delegated hw hm.1 hfind base) hw hx
      exact ih x (hm.2.2 x hgrants) hw₁ hnext
    · exact ih _ hm.2.1 hw hr
  | recorded key next ih => exact ih _ (hm _) hw hr
  | factory stem content root next ih =>
    obtain ⟨⟨x, w₁⟩, hx, hnext⟩ := Option.bind_eq_some_iff.mp hr
    obtain ⟨hw₁, hgrants⟩ := hemit.inMethod _ hheap hm.1 hw hx
    refine ih _ (hm.2 _ fun e he => ?_) hw₁ hnext
    cases x with
    | ok e' => cases he
    | error e' =>
      cases he
      exact hgrants e rfl

namespace Generator

/-- The property outlives the end of an emission. -/
theorem Guards.left (hguards : Guards c P) {w : Workshop} (hw : P w.generator) (v : Value) :
    P (w.left v).generator := by
  cases v with
  | object o => exact hguards.inProgress (w.generator.inProgress.erase o) hw
  | _ => exact hw

/-- Emitting a value fails only as admitted when running emitters does. -/
theorem Guards.emitVia (hguards : Guards c P) (hrun : Emitter.Heeds c P run) :
    (emitVia run).Heeds c P := by
  intro scope v base w r w' hheap hv hw hr
  rw [emitVia_eq] at hr
  cases hopening : w.generator.opening v with
  | settled r' =>
    rw [hopening] at hr
    cases hr
    exact ⟨hw, hguards.settled hw hv hopening⟩
  | runs e g =>
    rw [hopening] at hr
    obtain ⟨⟨r₁, w₁⟩, hw₁, heq⟩ := Option.map_eq_some_iff.mp hr
    cases heq
    obtain ⟨hg, hmeets⟩ := hguards.runs hw hv hopening
    obtain ⟨hend, hgrants⟩ := hrun (w := w.withGenerator g) hheap (hmeets base) hg hw₁
    exact ⟨hguards.left hend v, hgrants⟩

/-- By induction on the depth: the recipe of an emitter meets the conditions, and so do the emissions inside
it. -/
theorem Guards.runWithin (hguards : Guards c P) (depth : Nat) :
    Emitter.Heeds c P (runWithin depth) := by
  induction depth with
  | zero =>
    intro e scope v base w r w' _ _ _ hr
    cases hr
  | succ depth ih =>
    intro e scope v base w r w' hheap hm hw hr
    exact hm.follow hguards (hguards.emitVia ih) ih hheap hw hr

theorem Guards.emitWithin (hguards : Guards c P) (depth : Nat) :
    (emitWithin depth).Heeds c P :=
  hguards.emitVia (hguards.runWithin depth)

end Generator

end

end ResourceCode

import ResourceCode.Proofs.Emission.Coherence

/-!
Whom a failure blames. Built-in and drafted emitters fail with errors of their own, which are about a value at
hand, or pass on the error of a nested emission as it is. However deep it was made, an error therefore names the type
of a value that reads and lists lead to from the one that was to be emitted; the error of a failed read names the
very object whose property could not be read.
-/

namespace ResourceCode

/-- A read that fails does so every time, and with the same error. -/
theorem Heap.get_eq_error {heap : Heap} {o : Object} {property : String} {reading : Nat}
    {source : AccessError} (h : heap.get o property reading = .error source) (reading' : Nat) :
    heap.get o property reading' = .error source := by
  simp only [Heap.get] at h ⊢
  cases hread : (heap.cell o).read o.type property with
  | ok v =>
    rw [hread] at h
    cases h
  | error source' =>
    rw [hread] at h
    cases h
    rfl

/-- The errors that are about something a family covers. -/
inductive Family.Blames (family : Family) (heap : Heap) : EmitError → Prop
  | unsupported {x} (reason) : family.Covers heap x → Blames family heap (.unsupported x reason)
  | access {o property source} : family.Covers heap (.object o) →
      (∀ reading, heap.get o property reading = .error source) →
      Blames family heap (.propertyAccess o.type.name.full property source)

/-- A job of an emitter blames a value only for what a read of it has given. -/
theorem Family.blames_of_job {family : Family} {scope : Scope} {options : Options} {base : String}
    {reading : Nat} {e : EmitError} (h : (family.job scope options base reading).Blames e) :
    family.Blames scope.heap e := by
  cases h with
  | unsupported reason hx => exact .unsupported reason hx
  | access ho hread => exact .access ho (Heap.get_eq_error hread)

namespace Generator

/-- All emitters are built in or drafted. -/
def IsOwn (g : Generator) : Prop := g.registry.Within (fun _ => True) g.options.order

/-- A generator that has only emitters of its own still has when it has drafted one. -/
theorem lasting_isOwn : Lasting IsOwn where
  draft {g type} hg hnone := by
    obtain ⟨report, hdraft⟩ := draft_of_find?_eq_none hnone
    rw [hdraft]
    exact Registry.Within.drafting hg trivial
  inProgress _ hg := hg

/-- Without accepted emitters there are only drafts behind the built-in ones. -/
theorem Becomes.isOwn {options : Options} {g : Generator}
    (hg : ({ options } : Generator).Becomes [] g) : g.IsOwn := by
  obtain ⟨types, more, haccounts⟩ := hg.coherent
  have hmore : more = types.map (Descriptor.draftedEntry options.order) := by
    simpa using haccounts.drafted
  refine ⟨more, haccounts.entries, fun entry hentry => ?_⟩
  rw [hmore] at hentry
  obtain ⟨d, -, rfl⟩ := List.mem_map.mp hentry
  rw [haccounts.options]
  exact ⟨d, trivial, rfl⟩

end Generator

/-- An emission of covered values that fails only with errors about covered values. -/
def Emission.Accuses (family : Family) (emission : Emission) : Prop :=
  ∀ ⦃scope v base w e w'⦄, family.Covers scope.heap v → w.generator.IsOwn →
    emission scope v base w = some (.error e, w') → family.Blames scope.heap e

section

variable {family : Family} {emit : Emission} {run : Emitter → Emission}

theorem Emission.Accuses.inMethod (h : emit.Accuses family) (m : Method) :
    (emit.inMethod m).Accuses family := by
  intro scope v base w e w' hv hw hr
  obtain ⟨⟨r₁, w₁⟩, hw₁, heq⟩ := Option.map_eq_some_iff.mp hr
  cases r₁ with
  | ok e₁ => cases heq
  | error e₁ =>
    cases heq
    exact @h { scope with nested := true } v base { w with current := m } _ w₁ hv hw hw₁

/-- By induction on the recipe: an orderly one blames a value that it owns, or passes on what a nested emission
has blamed. -/
theorem Recipe.follow_accuses {α : Type} (hemit : emit.Accuses family) (hsteady : emit.Steady)
    (hown : emit.Maintains Generator.IsOwn) {scope : Scope} {options : Options} {base : String}
    {reading : Nat} {recipe : Recipe α} {h : Hand} {Q : α → Hand → Prop}
    (ho : recipe.Orderly (family.job scope options base reading) h Q) {w w' : Workshop}
    (hreading : w.generator.inProgress.length = reading) (hw : w.generator.IsOwn) {e : EmitError}
    (hr : recipe.follow emit run scope w = some (.error e, w')) :
    family.Blames scope.heap e := by
  induction recipe generalizing w h with
  | done a => cases hr
  | fail e' =>
    cases hr
    exact Family.blames_of_job ho
  | push s next ih => exact ih ho.2 (w := w.push s) hreading hw hr
  | read o property next ih =>
    rw [Recipe.follow, hreading] at hr
    exact ih _ ho.2 hreading hw hr
  | emit v name next ih =>
    obtain ⟨hv, -, member, -, hfail, hok⟩ := ho
    obtain ⟨⟨x, w₁⟩, hx, hnext⟩ := Option.bind_eq_some_iff.mp hr
    cases x with
    | ok e₁ =>
      have hlength : w₁.generator.inProgress.length = reading := by
        rw [(hsteady hx).inProgress, hreading]
      exact ih _ (hok e₁) hlength (hown hw hx) hnext
    | error e₁ =>
      -- the failure is passed on as it is, so the emission inside has to answer for it
      rw [hfail] at hnext
      cases hnext
      exact hemit hv hw hx
  | delegate type v name next ih => exact ho.elim
  | recorded key next ih =>
    rw [Recipe.follow] at hr
    cases hk : scope.recorded? key with
    | none =>
      rw [hk] at hr
      exact ih _ ho.1 hreading hw hr
    | some e' =>
      rw [hk] at hr
      exact ih _ (ho.2 e') hreading hw hr
  | factory stem content root next ih =>
    obtain ⟨-, -, hcontent, -, hfail, hok⟩ := ho
    obtain ⟨⟨x, w₁⟩, hx, hnext⟩ := Option.bind_eq_some_iff.mp hr
    cases x with
    | ok e₁ =>
      have hlength : w₁.generator.inProgress.length = reading := by
        rw [(hsteady.inMethod _ hx).1.inProgress, hreading]
      exact ih _ (hok _) hlength (hown.inMethod _ hw hx) hnext
    | error e₁ =>
      simp only [Except.map] at hnext
      rw [hfail] at hnext
      cases hnext
      exact hemit.inMethod _ hcontent hw hx

end

namespace Generator

variable {family : Family}

/-- A failure without an emitter being run is about the value itself. -/
theorem opening_blames {g : Generator} {heap : Heap} {v : Value} {e : EmitError}
    (hv : family.Covers heap v) (h : g.opening v = .settled (.error e)) : family.Blames heap e := by
  unfold opening at h
  split at h
  · cases h
    exact .unsupported _ hv
  · cases hw : g.handling v with
    | null => simp [hw] at h
    | registered e' => simp [hw] at h
    | enumeration =>
      rw [hw] at h
      cases v with
      | member type name => cases h
      | _ =>
        cases h
        exact .unsupported _ hv
    | locator =>
      rw [hw] at h
      cases htype : v.typeName? with
      | some type => simp [locator, htype] at h
      | none =>
        simp only [locator, htype] at h
        cases h
        exact .unsupported _ hv
    | blueprint =>
      rw [hw] at h
      cases v with
      | object o => cases h
      | _ =>
        cases h
        exact .unsupported _ hv

/-- Emitting a value accuses only what the family blames, when running its emitter does. -/
theorem emitVia_accuses {run : Emitter → Emission}
    (hrun : ∀ e, e.IsOwn → (run e).Accuses family) : (emitVia run).Accuses family := by
  intro scope v base w e w' hv hw hr
  rw [emitVia_eq] at hr
  have hopens := w.generator.opens v
  cases hopening : w.generator.opening v with
  | settled r =>
    rw [hopening] at hr
    cases hr
    exact opening_blames hv hopening
  | runs emitter g =>
    rw [hopening] at hr hopens
    obtain ⟨⟨r₁, w₁⟩, hw₁, heq⟩ := Option.map_eq_some_iff.mp hr
    cases heq
    cases hopens with
    | runs _ _ _ hcharge =>
      have hstart : (w.withGenerator g).generator.IsOwn := lasting_isOwn.opening hw hopening
      exact hrun emitter (hcharge.isOwn hw) hv hstart hw₁

/-- So does running an emitter of the generator's own, at any depth. -/
theorem runWithin_accuses (depth : Nat) {e : Emitter} (he : e.IsOwn) :
    (runWithin depth e).Accuses family := by
  induction depth generalizing e with
  | zero =>
    intro scope v base w x w' hv hw hr
    cases hr
  | succ depth ih =>
    intro scope v base w x w' hv hw hr
    have horderly := Emitter.orderly (j := family.job scope w.generator.options base
      w.generator.inProgress.length) he hv
    exact Recipe.follow_accuses (emitVia_accuses fun e he => ih he) (emitWithin_steady depth)
      (emitWithin_maintains lasting_isOwn depth) horderly rfl hw hr

theorem emitWithin_accuses (depth : Nat) : (emitWithin depth).Accuses family :=
  emitVia_accuses fun _ he => runWithin_accuses depth he

variable {options : Options} {g : Generator}

/-- An error is about something that reads and lists lead to from the value. A failed read is reported with the type
of the object, the property, and the very error that reading it gives. No type is registered twice. -/
theorem process_blames (hg : ({ options } : Generator).Becomes [] g) {c : Call} {e : EmitError}
    {w : Workshop} (h : g.process c = some (.error e, w)) :
    (∀ type property source, e = .propertyAccess type property source →
      ∃ o, c.scope.heap.Reaches c.value (.object o) ∧ o.type.name.full = type ∧
        ∀ reading, c.scope.heap.get o property reading = .error source) ∧
    (∀ type reason, e = .unsupportedValue type reason →
      ∃ x, c.scope.heap.Reaches c.value x ∧ x.typeText = type) ∧
    ∀ type, e ≠ .duplicateRegistration type := by
  have hblames : Family.Blames (fun _ v => v = c.value) c.scope.heap e :=
    emitWithin_accuses _ (Family.covers_of_mem rfl) hg.isOwn h
  cases hblames with
  | @unsupported x reason hx =>
    obtain ⟨_, rfl, hx⟩ := hx
    refine ⟨by simp [EmitError.unsupported], ?_, by simp [EmitError.unsupported]⟩
    intro type reason' heq
    cases heq
    exact ⟨x, hx, rfl⟩
  | @access o property source ho hread =>
    obtain ⟨_, rfl, ho⟩ := ho
    refine ⟨?_, by simp, by simp⟩
    intro type property' source' heq
    cases heq
    exact ⟨o, ho, rfl, hread⟩

/-- A mug on a coaster, whose label cannot be read. -/
def mug : Object :=
  { cell := 1, type := { name := ⟨"Demo.Mug"⟩, properties := [{ name := "Label" }] } }

def coaster : Object :=
  { cell := 0, type := { name := ⟨"Demo.Coaster"⟩, properties := [{ name := "Mug" }] } }

def coasterCall : Call where
  scope := { heap := ⟨#[{ values := [("Mug", .object mug)] }, { failures := [("Label", "smudged")] }]⟩ }
  value := .object coaster
  base := "coaster"
  current := { name := "InitializeResources" }
  target := { name := "Dictionary1" }

def smudged : AccessError := .getter "Label" "smudged"

theorem process_blames_coaster :
    ∃ w, ({} : Generator).process coasterCall =
        some (.error (.propertyAccess "Demo.Mug" "Label" smudged), w) ∧
      ∃ o, coasterCall.scope.heap.Reaches coasterCall.value (.object o) ∧
        o.type.name.full = "Demo.Mug" ∧
        ∀ reading, coasterCall.scope.heap.get o "Label" reading = .error smudged := by
  have hfails : (({} : Generator).process coasterCall).any (fun x =>
      (EmitError.propertyAccess "Demo.Mug" "Label" smudged).isFailure x.1) = true := by
    decide +kernel
  obtain ⟨⟨r, w⟩, h, hr⟩ := (Option.any_eq_true _ _).mp hfails
  obtain rfl := EmitError.isFailure_iff.mp hr
  exact ⟨w, h, (process_blames .same h).1 _ _ _ rfl⟩

end Generator

end ResourceCode

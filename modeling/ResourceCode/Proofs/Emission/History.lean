import ResourceCode.Proofs.Emission.Transparency

/-!
What a generator goes through. Emitters are registered with it and values are emitted by it, one thing after
another, and the emitters may be any. While a value is emitted a generator changes only by drafting emitters for
types that have none, and by which objects are in progress. A property that neither can take away therefore lasts,
however deep emitters run inside each other and however the emission ends.
-/

namespace ResourceCode

/-- Whether a result is the failure with an error. -/
def EmitError.isFailure (e : EmitError) : Except EmitError Expr → Bool
  | .ok _ => false
  | .error x => x == e

theorem EmitError.isFailure_iff {e : EmitError} {r : Except EmitError Expr} :
    e.isFailure r = true ↔ r = .error e := by
  cases r <;> simp [isFailure]

/-- A property that drafting keeps, and to which it makes no difference which objects are in progress. -/
structure Generator.Lasting (P : Generator → Prop) : Prop where
  draft : ∀ {g : Generator} {type : Descriptor}, P g → g.registry.find? type.name = none →
    P (g.draft type).2
  inProgress : ∀ {g : Generator} (objects : List Object), P g → P { g with inProgress := objects }

/-- An emission after which the generator still has the property. -/
def Emission.Maintains (P : Generator → Prop) (emission : Emission) : Prop :=
  ∀ ⦃scope v base w r w'⦄, P w.generator → emission scope v base w = some (r, w') → P w'.generator

section

variable {P : Generator → Prop} {emission : Emission} {run : Emitter → Emission}

/-- Into which method is emitted does not matter to the generator. -/
theorem Emission.Maintains.inMethod (h : emission.Maintains P) (m : Method) :
    (emission.inMethod m).Maintains P := by
  intro scope v base w r w' hw hr
  obtain ⟨⟨r₁, w₁⟩, hw₁, heq⟩ := Option.map_eq_some_iff.mp hr
  have hstart : P { w with current := m }.generator := hw
  have hend := h hstart hw₁
  cases r₁ <;> cases heq <;> exact hend

/-- By induction on the recipe: its own steps leave the generator alone. -/
theorem Recipe.follow_maintains {α : Type} (hemission : emission.Maintains P)
    (hrun : ∀ e, (run e).Maintains P) {scope : Scope} {recipe : Recipe α} {w w' : Workshop}
    {r : Except EmitError α} (hw : P w.generator)
    (hr : recipe.follow emission run scope w = some (r, w')) : P w'.generator := by
  induction recipe generalizing w with
  | done a => cases hr; exact hw
  | fail e => cases hr; exact hw
  | push s next ih => exact ih (w := w.push s) hw hr
  | read o property next ih => exact ih _ hw hr
  | emit v base next ih =>
    obtain ⟨⟨x, w₁⟩, hx, hnext⟩ := Option.bind_eq_some_iff.mp hr
    exact ih x (hemission hw hx) hnext
  | delegate type v base next ih =>
    rw [Recipe.follow] at hr
    split at hr
    · obtain ⟨⟨x, w₁⟩, hx, hnext⟩ := Option.bind_eq_some_iff.mp hr
      exact ih x (hrun _ hw hx) hnext
    · exact ih _ hw hr
  | recorded key next ih => exact ih _ hw hr
  | factory stem content root next ih =>
    obtain ⟨⟨x, w₁⟩, hx, hnext⟩ := Option.bind_eq_some_iff.mp hr
    exact ih _ (hemission.inMethod _ hw hx) hnext

namespace Generator

variable {g g' : Generator} {v : Value} {e : Emitter}

/-- An object that is entered does not matter to the property. -/
theorem Lasting.entered (hP : Lasting P) (hg : P g) (v : Value) : P (g.entered v) := by
  cases v with
  | object o => exact hP.inProgress (o :: g.inProgress) hg
  | _ => exact hg

theorem Lasting.left (hP : Lasting P) {w : Workshop} (hw : P w.generator) (v : Value) :
    P (w.left v).generator := by
  cases v with
  | object o => exact hP.inProgress (w.generator.inProgress.erase o) hw
  | _ => exact hw

/-- The generator in which an emitter is run has drafted it, if anything. -/
theorem Lasting.opening (hP : Lasting P) (hg : P g) (h : g.opening v = .runs e g') : P g' := by
  unfold Generator.opening at h
  split at h
  · cases h
  · cases hw : g.handling v with
    | registered e' =>
      rw [hw] at h
      cases h
      exact hP.entered hg v
    | blueprint =>
      rw [hw] at h
      cases v with
      | object o =>
        cases h
        exact hP.draft (hP.entered hg (.object o)) (handling_blueprint hw o rfl).1
      | _ => cases h
    | _ =>
      rw [hw] at h
      cases h

/-- Emitting a value maintains a lasting property when running emitters does. -/
theorem emitVia_maintains (hP : Lasting P) (hrun : ∀ e, (run e).Maintains P) :
    (emitVia run).Maintains P := by
  intro scope v base w r w' hw hr
  rw [emitVia_eq] at hr
  cases hopening : w.generator.opening v with
  | settled r' =>
    rw [hopening] at hr
    cases hr
    exact hw
  | runs e g =>
    rw [hopening] at hr
    obtain ⟨⟨r₁, w₁⟩, hw₁, heq⟩ := Option.map_eq_some_iff.mp hr
    cases heq
    have hstart : P (w.withGenerator g).generator := hP.opening hw hopening
    exact hP.left (hrun e hstart hw₁) v

/-- Emitters have no other way to change the generator than the emissions they ask for. -/
theorem runWithin_maintains (hP : Lasting P) (depth : Nat) (e : Emitter) :
    (runWithin depth e).Maintains P := by
  induction depth generalizing e with
  | zero =>
    intro scope v base w r w' hw hr
    cases hr
  | succ depth ih =>
    intro scope v base w r w' hw hr
    exact Recipe.follow_maintains (emitVia_maintains hP ih) ih hw hr

theorem emitWithin_maintains (hP : Lasting P) (depth : Nat) : (emitWithin depth).Maintains P :=
  emitVia_maintains hP (runWithin_maintains hP depth)

end Generator

end

namespace Generator

/-- Where a call begins. -/
def begin (g : Generator) (c : Call) : Workshop :=
  { generator := g, current := c.current, target := c.target }

/-- What becomes of a generator when emitters are registered and values are emitted, by the emitters in charge
or by a certain one. `added` are the types of the emitters it has accepted, in order; one that is refused
leaves it as it is. -/
inductive Becomes (g : Generator) : List TypeName → Generator → Prop
  | same : Becomes g [] g
  | accepts {added h e h'} : Becomes g added h → h.register e = .ok h' →
      Becomes g (added ++ [e.typeName]) h'
  | refuses {added h e x} : Becomes g added h → h.register e = .error x → Becomes g added h
  | emits {added h depth c r w} : Becomes g added h →
      emitWithin depth c.scope c.value c.base (h.begin c) = some (r, w) → Becomes g added w.generator
  | runs {added h depth e c r w} : Becomes g added h →
      runWithin depth e c.scope c.value c.base (h.begin c) = some (r, w) → Becomes g added w.generator

variable {g h : Generator} {added : List TypeName}

/-- A registration is accepted for a type without an emitter, and adds one entry behind all others. -/
theorem register_eq_ok {g' : Generator} {e : Emitter} (hr : g.register e = .ok g') :
    e.typeName ∉ g.registry.keys ∧
      g' = { g with registry := ⟨g.registry.entries ++ [(e.typeName, e)]⟩ } := by
  unfold register Registry.add Registry.register at hr
  split at hr
  · cases hr
  · rename_i hnot
    cases hr
    exact ⟨fun hmem => hnot (Registry.contains_iff.mpr hmem), rfl⟩

/-- A type without an emitter is always accepted. -/
theorem register_of_find?_eq_none {e : Emitter} (h : g.registry.find? e.typeName = none) :
    g.register e = .ok { g with registry := ⟨g.registry.entries ++ [(e.typeName, e)]⟩ } := by
  rw [register, Registry.add, Registry.register_of_find?_eq_none e h]
  rfl

/-- Registration is refused exactly for types that have an emitter. -/
theorem register_eq_error_iff {e : Emitter} {x : EmitError} :
    g.register e = .error x ↔
      e.typeName ∈ g.registry.keys ∧ x = .duplicateRegistration e.typeName.full := by
  unfold register Registry.add Registry.register
  split
  · rename_i hcontains
    have hmem := Registry.contains_iff.mp hcontains
    constructor
    · intro hx
      cases hx
      exact ⟨hmem, rfl⟩
    · rintro ⟨-, rfl⟩
      rfl
  · rename_i hnot
    constructor
    · intro hx
      cases hx
    · intro hx
      exact absurd (Registry.contains_iff.mpr hx.1) hnot

/-- Emitters are only ever added. -/
theorem Becomes.entries (hh : g.Becomes added h) :
    ∃ more, h.registry.entries = g.registry.entries ++ more := by
  induction hh with
  | same => exact ⟨[], by simp⟩
  | accepts _ hr ih =>
    obtain ⟨more, hmore⟩ := ih
    obtain ⟨-, rfl⟩ := register_eq_ok hr
    exact ⟨_, by rw [hmore, List.append_assoc]⟩
  | refuses _ _ ih => exact ih
  | emits _ hr ih =>
    obtain ⟨more, hmore⟩ := ih
    obtain ⟨more', hmore'⟩ := (emitWithin_steady _ hr).registry
    exact ⟨more ++ more', by rw [hmore', ← List.append_assoc, ← hmore]; rfl⟩
  | runs _ hr ih =>
    obtain ⟨more, hmore⟩ := ih
    obtain ⟨more', hmore'⟩ := (runWithin_steady _ _ hr).registry
    exact ⟨more ++ more', by rw [hmore', ← List.append_assoc, ← hmore]; rfl⟩

end Generator

end ResourceCode

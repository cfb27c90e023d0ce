import ResourceCode.Generator

/-!
What every emission keeps, whatever the emitters are and however it ends: it adds statements at the end of the
current method, methods at the end of the class and emitters at the end of the registry, and it leaves the
options and the objects in progress as it found them.
-/

namespace ResourceCode

/-- From one workshop to a later one. -/
structure Workshop.Grows (w w' : Workshop) : Prop where
  current : ∃ statements, w'.current = { w.current with body := w.current.body ++ statements }
  target : ∃ methods, w'.target = { w.target with methods := w.target.methods ++ methods }
  registry : ∃ entries,
    w'.generator.registry.entries = w.generator.registry.entries ++ entries
  options : w'.generator.options = w.generator.options
  inProgress : w'.generator.inProgress = w.generator.inProgress

namespace Workshop

theorem Grows.refl (w : Workshop) : w.Grows w :=
  ⟨⟨[], by simp⟩, ⟨[], by simp⟩, ⟨[], by simp⟩, rfl, rfl⟩

/-- Growth is transitive: methods and emitters are added behind what was added before. -/
theorem Grows.trans {u v w : Workshop} (huv : u.Grows v) (hvw : v.Grows w) : u.Grows w := by
  obtain ⟨⟨s, hs⟩, ⟨m, hm⟩, ⟨e, he⟩, ho, hi⟩ := huv
  obtain ⟨⟨s', hs'⟩, ⟨m', hm'⟩, ⟨e', he'⟩, ho', hi'⟩ := hvw
  exact ⟨⟨s ++ s', by simp [hs', hs]⟩, ⟨m ++ m', by simp [hm', hm]⟩,
    ⟨e ++ e', by simp [he', he]⟩, ho'.trans ho, hi'.trans hi⟩

/-- A statement that is written grows the current method. -/
theorem grows_push (w : Workshop) (s : Statement) : w.Grows (w.push s) :=
  ⟨⟨[s], rfl⟩, ⟨[], by simp [push]⟩, ⟨[], by simp [push]⟩, rfl, rfl⟩

end Workshop

/-- An emission that only grows the workshop. -/
def Emission.Steady (emission : Emission) : Prop :=
  ∀ ⦃scope v base w r w'⦄, emission scope v base w = some (r, w') → w.Grows w'

/-- The current method is given back as it was. -/
theorem Emission.Steady.inMethod {emission : Emission} (h : emission.Steady) (m : Method)
    {scope : Scope} {v : Value} {base : String} {w w' : Workshop} {r : Except EmitError Expr}
    (hr : emission.inMethod m scope v base w = some (r, w')) :
    w.Grows w' ∧ w'.current = w.current := by
  obtain ⟨⟨r₁, w₁⟩, hw, heq⟩ := Option.map_eq_some_iff.mp hr
  obtain ⟨-, ⟨methods, ht⟩, hreg, hopt, hprog⟩ := h hw
  cases r₁ with
  | ok e =>
    cases heq
    exact ⟨⟨⟨[], by simp⟩, ⟨methods ++ [_], by simp [ht, Class.add]; rfl⟩, hreg, hopt, hprog⟩, rfl⟩
  | error e =>
    cases heq
    exact ⟨⟨⟨[], by simp⟩, ⟨methods, ht⟩, hreg, hopt, hprog⟩, rfl⟩

/-- Following any recipe only grows the workshop when emissions and emitters do. -/
theorem Recipe.follow_grows {α : Type} {emit : Emission} {run : Emitter → Emission}
    (hemit : emit.Steady) (hrun : ∀ e, (run e).Steady) {scope : Scope} {recipe : Recipe α}
    {w w' : Workshop} {r : Except EmitError α}
    (h : recipe.follow emit run scope w = some (r, w')) : w.Grows w' := by
  induction recipe generalizing w with
  | done a => cases h; exact .refl _
  | fail e => cases h; exact .refl _
  | push s next ih => exact (w.grows_push s).trans (ih h)
  | read o property next ih => exact ih _ h
  | emit v base next ih =>
    obtain ⟨⟨x, w₁⟩, hx, hnext⟩ := Option.bind_eq_some_iff.mp h
    exact (hemit hx).trans (ih x hnext)
  | delegate type v base next ih =>
    rw [Recipe.follow] at h
    split at h
    · obtain ⟨⟨x, w₁⟩, hx, hnext⟩ := Option.bind_eq_some_iff.mp h
      exact (hrun _ hx).trans (ih x hnext)
    · exact ih _ h
  | recorded key next ih => exact ih _ h
  | factory stem content root next ih =>
    obtain ⟨⟨x, w₁⟩, hx, hnext⟩ := Option.bind_eq_some_iff.mp h
    exact (hemit.inMethod _ hx).1.trans (ih _ hnext)

namespace Registry

/-- Emitters that are added behind do not get in the way of those that are found already. -/
theorem find?_isSome_of_append {r s : Registry} {type : TypeName} {e : Emitter}
    {entries : List (TypeName × Emitter)} (hs : s.entries = r.entries ++ entries)
    (h : r.find? type = some e) : s.find? type = some e := by
  unfold find? at *
  rw [hs, List.lookup_append, h, Option.some_or]

/-- A type without an emitter can be registered. -/
theorem register_of_find?_eq_none {r : Registry} {type : TypeName} (e : Emitter)
    (h : r.find? type = none) : r.register type e = .ok ⟨r.entries ++ [(type, e)]⟩ := by
  simp [register, contains, h]

end Registry

namespace Generator

/-- Drafting an emitter for a type that has none always succeeds. -/
theorem draft_of_find?_eq_none {g : Generator} {type : Descriptor}
    (h : g.registry.find? type.name = none) :
    ∃ report, g.draft type = (.ok (.drafted (.ofDescriptor type g.options.order)),
      { g with
        registry := ⟨g.registry.entries
          ++ [(type.name, .drafted (.ofDescriptor type g.options.order))]⟩
        report }) := by
  refine ⟨(g.report.recordSkipped (.ofDescriptor type g.options.order)).recordDrafted
    (.ofDescriptor type g.options.order), ?_⟩
  simp only [draft, Registry.register_of_find?_eq_none _ h]

/-- Drafting only adds emitters, and leaves the options and the objects in progress as they are. -/
theorem draft_grows {g g' : Generator} {type : Descriptor} {r : Except EmitError Emitter}
    (h : g.draft type = (r, g')) :
    (∃ entries, g'.registry.entries = g.registry.entries ++ entries) ∧ g'.options = g.options ∧
      g'.inProgress = g.inProgress := by
  unfold draft at h
  dsimp only at h
  split at h
  · rename_i registry hr
    cases h
    unfold Registry.register at hr
    split at hr
    · cases hr
    · cases hr
      exact ⟨⟨_, rfl⟩, rfl, rfl⟩
  · cases h
    exact ⟨⟨[], by simp⟩, rfl, rfl⟩

/-- However a value is handled, the workshop only grows when running emitters grows it. -/
theorem handle_steady {run : Emitter → Emission} (hrun : ∀ e, (run e).Steady) (way : Handling) :
    Emission.Steady (handle run way) := by
  intro scope v base w r w' h
  unfold handle at h
  cases way with
  | null => cases h; exact .refl w
  | registered e => exact hrun e h
  | enumeration => cases h; exact .refl w
  | locator =>
    dsimp only at h
    split at h <;> cases h <;> exact .refl w
  | blueprint =>
    cases v with
    | object o =>
      dsimp only at h
      obtain ⟨hreg, hopt, hprog⟩ := draft_grows (rfl : w.generator.draft o.type = _)
      have hw : w.Grows { w with generator := (w.generator.draft o.type).2 } :=
        ⟨⟨[], by simp⟩, ⟨[], by simp⟩, hreg, hopt, hprog⟩
      split at h
      · exact hw.trans (hrun _ h)
      · cases h; exact hw
    | literal l => cases h; exact .refl w
    | member type name => cases h; exact .refl w
    | list items => cases h; exact .refl w

/-- Emitting a value only grows the workshop when running emitters does. -/
theorem emitVia_steady {run : Emitter → Emission} (hrun : ∀ e, (run e).Steady) :
    (emitVia run).Steady := by
  intro scope v base w r w' h
  unfold emitVia at h
  dsimp only at h
  split at h
  · rename_i o
    split at h
    · cases h; exact .refl w
    · obtain ⟨⟨x, w₁⟩, hx, heq⟩ := Option.map_eq_some_iff.mp h
      cases heq
      obtain ⟨hcur, htar, hreg, hopt, hprog⟩ := handle_steady hrun _ hx
      refine ⟨hcur, htar, hreg, hopt, ?_⟩
      simp only [Workshop.leave, hprog, Workshop.enter, List.erase_cons_head]
  · exact handle_steady hrun _ h

/-- Every emitter only grows the workshop, however deep others run inside it. -/
theorem runWithin_steady (depth : Nat) (e : Emitter) : (runWithin depth e).Steady := by
  induction depth generalizing e with
  | zero => intro scope v base w r w' h; cases h
  | succ depth ih =>
    intro scope v base w r w' h
    exact Recipe.follow_grows (emitVia_steady ih) ih h

theorem emitWithin_steady (depth : Nat) : (emitWithin depth).Steady :=
  emitVia_steady (runWithin_steady depth)

/-- From the outside as well, emitting a value only grows the workshop. -/
theorem emit_grows {scope : Scope} {v : Value} {base : String} {w w' : Workshop}
    {r : Except EmitError Expr} (h : emit scope v base w = some (r, w')) : w.Grows w' :=
  emitWithin_steady _ h

end Generator

end ResourceCode

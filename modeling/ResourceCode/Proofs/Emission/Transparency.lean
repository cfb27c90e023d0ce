import ResourceCode.Proofs.Emission.Opening

/-!
The registry is a cache and nothing else. What a generator writes for a value does not depend on what it has
emitted before, as long as the types of the objects it is given can be told apart by their names.

Two generators with different histories are run side by side. They agree in all but their registries and
reports, and each registry holds the built-in emitters and drafts of the same types. For the type of an
object at hand such a registry has either the draft that the other one is about to make, or nothing yet.
-/

namespace ResourceCode

/-- The values that reads and lists lead to from a value, whatever copies the reads give. -/
inductive Heap.Reaches (heap : Heap) (v : Value) : Value → Prop
  | refl : Reaches heap v v
  | item {items x} : Reaches heap v (.list items) → x ∈ items → Reaches heap v x
  | read {o property reading x} : Reaches heap v (.object o) →
      heap.get o property reading = .ok x → Reaches heap v x

/-- Some values, each with the heap that answers for it. -/
abbrev Family := Heap → Value → Prop

namespace Family

variable {family : Family}

/-- The members of a family and what they reach. -/
def Covers (family : Family) (heap : Heap) (x : Value) : Prop :=
  ∃ v, family heap v ∧ heap.Reaches v x

/-- The types of the objects of a family that may need an emitter. -/
def Types (family : Family) (type : Descriptor) : Prop :=
  type.isEnumeration = false ∧ type.derivesLocator = false ∧
    ∃ heap o, family.Covers heap (.object o) ∧ o.type = type

/-- Types can be told apart by their names: objects whose types have the same name have the same type, and
an enumeration has another name than the type of an object that is no enumeration. -/
structure Consistent (family : Family) : Prop where
  objects : ∀ {heap heap' o o'}, family.Covers heap (.object o) → family.Covers heap' (.object o') →
    o.type.name = o'.type.name → o.type = o'.type
  members : ∀ {heap heap' type name o}, family.Covers heap (.member type name) →
    family.Covers heap' (.object o) → o.type.isEnumeration = false → type.name ≠ o.type.name

theorem covers_of_mem {heap : Heap} {v : Value} (h : family heap v) : family.Covers heap v :=
  ⟨v, h, .refl⟩

/-- An emission of a covered value, as a job. -/
def job (family : Family) (scope : Scope) (options : Options) (base : String) (reading : Nat) : Job where
  options
  base
  answer o property := scope.heap.get o property reading
  owned := family.Covers scope.heap
  owned_read := fun ⟨v, hv, hx⟩ hr => ⟨v, hv, .read hx hr⟩
  owned_item := fun ⟨v, hv, hx⟩ hm => ⟨v, hv, .item hx hm⟩

end Family

/-- Generators that agree in all but what they have drafted, and both have drafted emitters for some of the
types only. -/
structure Generator.Alike (types : Descriptor → Prop) (g g' : Generator) : Prop where
  options : g.options = g'.options
  inProgress : g.inProgress = g'.inProgress
  left : g.registry.Within types g.options.order
  right : g'.registry.Within types g'.options.order

namespace Generator

variable {types : Descriptor → Prop} {f g h : Generator}

theorem Alike.symm (hg : f.Alike types g) : g.Alike types f :=
  ⟨hg.options.symm, hg.inProgress.symm, hg.right, hg.left⟩

theorem Alike.trans (hg : f.Alike types g) (hh : g.Alike types h) : f.Alike types h :=
  ⟨hg.options.trans hh.options, hg.inProgress.trans hh.inProgress, hg.left, hh.right⟩

/-- The same options and the same objects in progress, and nothing drafted. -/
def fresh (g : Generator) : Generator := { options := g.options, inProgress := g.inProgress }

/-- Alike generators would be the same ones if nothing had been drafted. -/
theorem Alike.fresh_eq (hg : f.Alike types g) : f.fresh = g.fresh := by
  simp only [fresh, hg.options, hg.inProgress]

end Generator

inductive Opening.Alike (types : Descriptor → Prop) : Opening → Opening → Prop
  | settled (r) : Alike types (.settled r) (.settled r)
  | runs {e g g'} : e.IsOwn → g.Alike types g' → Alike types (.runs e g) (.runs e g')

namespace Opening

variable {types : Descriptor → Prop} {a b c : Opening}

theorem Alike.symm (h : a.Alike types b) : b.Alike types a := by
  cases h with
  | settled r => exact .settled r
  | runs he hg => exact .runs he hg.symm

theorem Alike.trans (hb : a.Alike types b) (hc : b.Alike types c) : a.Alike types c := by
  cases hb with
  | settled r => exact hc
  | runs he hg =>
    cases hc with
    | runs _ hg' => exact .runs he (hg.trans hg')

end Opening

namespace Generator

variable {family : Family} {heap : Heap} {v : Value} {g g' : Generator}

/-- A value for whose type an emitter has been drafted is an object that would get the same draft. -/
theorem object_of_drafted (hf : family.Consistent) (hv : family.Covers heap v) {type : TypeName}
    (htype : v.typeName? = some type) (hb : Registry.builtin.find? type = none) {d : Descriptor}
    (hd : family.Types d) (hname : d.name = type) : ∃ o, v = .object o ∧ o.type = d := by
  obtain ⟨henum, -, heap', o', ho', rfl⟩ := hd
  cases v with
  | literal l =>
    obtain ⟨p, hp⟩ := Registry.find?_builtin_literal htype
    simp [hp] at hb
  | member d' name =>
    have hne := hf.members hv ho' henum
    simp_all [Value.typeName?]
  | list items =>
    cases htype
    rw [Registry.find?_builtin_list] at hb
    cases hb
  | object o => exact ⟨o, rfl, hf.objects hv ho' (by simp_all [Value.typeName?])⟩

/-- A fresh generator handles a value the same way, or drafts what has been drafted. -/
theorem handling_fresh (hf : family.Consistent) (hv : family.Covers heap v)
    (hg : g.registry.Within family.Types g.options.order) :
    g.handling v = g.fresh.handling v ∨
      ∃ o, v = .object o ∧ family.Types o.type ∧ g.fresh.handling v = .blueprint ∧
        g.handling v = .registered (.drafted (.ofDescriptor o.type g.options.order)) := by
  unfold handling
  cases htype : v.typeName? with
  | none => exact .inl rfl
  | some type =>
    have hfresh : g.fresh.registry.find? type = Registry.builtin.find? type := rfl
    dsimp only
    rw [hfresh]
    cases hb : Registry.builtin.find? type with
    | some e =>
      rw [hg.find?_of_builtin hb]
      exact .inl rfl
    | none =>
      cases hr : g.registry.find? type with
      | none => exact .inl rfl
      | some e =>
        obtain hb' | ⟨d, hd, hname, rfl⟩ := hg.find?_eq hr
        · simp [hb] at hb'
        · obtain ⟨o, rfl, rfl⟩ := object_of_drafted hf hv htype hb hd hname
          exact .inr ⟨o, rfl, hd, by simp [hd.1, hd.2.1], rfl⟩

/-- Every generator opens as a fresh one would. -/
theorem opening_fresh (hf : family.Consistent) (hv : family.Covers heap v)
    (hg : g.registry.Within family.Types g.options.order) :
    (g.opening v).Alike family.Types (g.fresh.opening v) := by
  have hbuiltin := Registry.within_builtin family.Types g.options.order
  unfold opening
  have hp : g.fresh.isInProgress v = g.isInProgress v := by cases v <;> rfl
  rw [hp]
  by_cases hin : g.isInProgress v
  · rw [if_pos hin, if_pos hin]
    exact .settled _
  · rw [if_neg hin, if_neg hin]
    obtain heq | ⟨o, rfl, htypes, hfresh, heq⟩ := handling_fresh hf hv hg
    · rw [heq]
      cases hw : g.fresh.handling v with
      | registered e =>
        obtain ⟨type, -, he⟩ := handling_registered hw
        have hentered : (g.entered v).Alike family.Types (g.fresh.entered v) := by
          cases v <;> exact ⟨rfl, rfl, hg, hbuiltin⟩
        exact .runs (Registry.isOwn_of_builtin he) hentered
      | blueprint =>
        cases v with
        | object o =>
          obtain ⟨report, hd⟩ := draft_of_handling (heq.trans hw)
          obtain ⟨report', hd'⟩ := draft_of_handling hw
          obtain ⟨-, henum, hbase⟩ := handling_blueprint hw o rfl
          have htypes : family.Types o.type := ⟨henum, hbase, heap, o, hv, rfl⟩
          simp only [drafting, hd, hd']
          exact .runs trivial ⟨rfl, rfl, hg.drafting htypes, hbuiltin.drafting htypes⟩
        | _ => exact .settled _
      | _ => exact .settled _
    -- the type has been drafted before, so that a fresh generator drafts it now
    · obtain ⟨report, hd⟩ := draft_of_handling hfresh
      rw [heq, hfresh]
      simp only [drafting, hd]
      exact .runs trivial ⟨rfl, rfl, hg, hbuiltin.drafting htypes⟩

end Generator

/-- Workshops that agree in all but what their generators have drafted. -/
structure Workshop.Alike (types : Descriptor → Prop) (w w' : Workshop) : Prop where
  current : w.current = w'.current
  target : w.target = w'.target
  generator : w.generator.Alike types w'.generator

namespace Workshop

variable {types : Descriptor → Prop} {w w' : Workshop}

theorem Alike.symm (h : w.Alike types w') : w'.Alike types w :=
  ⟨h.current.symm, h.target.symm, h.generator.symm⟩

/-- The same statement keeps workshops alike. -/
theorem Alike.push (h : w.Alike types w') (s : Statement) : (w.push s).Alike types (w'.push s) :=
  ⟨congrArg (·.push s) h.current, h.target, h.generator⟩

theorem Alike.leave (h : w.Alike types w') (v : Value) : (w.left v).Alike types (w'.left v) := by
  cases v with
  | object o =>
    obtain ⟨hcurrent, htarget, hoptions, hprogress, hl, hr⟩ := h
    exact ⟨hcurrent, htarget, hoptions, congrArg (·.erase o) hprogress, hl, hr⟩
  | _ => exact h

end Workshop

/-- An emission of covered values that has the same outcome in workshops that are alike. -/
def Emission.Blind (family : Family) (emission : Emission) : Prop :=
  ∀ ⦃scope v base w w' r u⦄, family.Covers scope.heap v → w.Alike family.Types w' →
    emission scope v base w = some (r, u) →
    ∃ u', emission scope v base w' = some (r, u') ∧ u.Alike family.Types u'

section

variable {family : Family} {emit : Emission} {run : Emitter → Emission} {scope : Scope}
  {w w' u : Workshop}

/-- What is blind in one method is blind in every other. -/
theorem Emission.Blind.inMethod (h : emit.Blind family) (m : Method) :
    (emit.inMethod m).Blind family := by
  intro scope v base w w' r u hv hw hr
  obtain ⟨⟨r₁, u₁⟩, hu, heq⟩ := Option.map_eq_some_iff.mp hr
  have hm : Workshop.Alike family.Types { w with current := m } { w' with current := m } :=
    ⟨rfl, hw.target, hw.generator⟩
  have hcovers : family.Covers { scope with nested := true }.heap v := hv
  obtain ⟨u₁', hu', halike⟩ := h hcovers hm hu
  cases r₁ with
  | ok e =>
    cases heq
    refine ⟨_, Option.map_eq_some_iff.mpr ⟨_, hu', rfl⟩, hw.current, ?_, halike.generator⟩
    simp only [halike.target, halike.current]
  | error e =>
    cases heq
    exact ⟨_, Option.map_eq_some_iff.mpr ⟨_, hu', rfl⟩, hw.current, halike.target, halike.generator⟩

/-- Following an orderly recipe has the same outcome in workshops that are alike. -/
theorem Recipe.follow_blind {α : Type} (hemit : emit.Blind family) (hsteady : emit.Steady)
    {options : Options} {base : String} {reading : Nat} {recipe : Recipe α} {h : Hand}
    {Q : α → Hand → Prop}
    (ho : recipe.Orderly (family.job scope options base reading) h Q)
    (hreading : w.generator.inProgress.length = reading) (hw : w.Alike family.Types w')
    {r : Except EmitError α} (hr : recipe.follow emit run scope w = some (r, u)) :
    ∃ u', recipe.follow emit run scope w' = some (r, u') ∧ u.Alike family.Types u' := by
  -- both runs follow the one recipe with the same hand, so the orderliness of one serves for both
  induction recipe generalizing w w' h with
  | done a =>
    cases hr
    exact ⟨w', rfl, hw⟩
  | fail e =>
    cases hr
    exact ⟨w', rfl, hw⟩
  | push s next ih =>
    have hpush : (w.push s).generator.inProgress.length = reading := hreading
    exact ih ho.2 hpush (hw.push s) hr
  | read o property next ih =>
    have hlength : w'.generator.inProgress.length = reading := by
      rw [← hw.generator.inProgress, hreading]
    rw [Recipe.follow, hreading] at hr
    rw [Recipe.follow, hlength]
    exact ih _ ho.2 hreading hw hr
  | emit v name next ih =>
    obtain ⟨hv, -, member, -, hfail, hok⟩ := ho
    obtain ⟨⟨x, w₁⟩, hx, hnext⟩ := Option.bind_eq_some_iff.mp hr
    obtain ⟨w₁', hx', hw₁⟩ := hemit hv hw hx
    have hreading₁ : w₁.generator.inProgress.length = reading := by
      rw [(hsteady hx).inProgress, hreading]
    simp only [Recipe.follow, hx', Option.bind_some]
    cases x with
    | ok e => exact ih _ (hok e) hreading₁ hw₁ hnext
    | error e =>
      rw [hfail] at hnext ⊢
      cases hnext
      exact ⟨w₁', rfl, hw₁⟩
  | delegate type v name next ih => exact ho.elim
  | recorded key next ih =>
    rw [Recipe.follow] at hr ⊢
    cases hk : scope.recorded? key with
    | none =>
      rw [hk] at hr
      exact ih _ ho.1 hreading hw hr
    | some e =>
      rw [hk] at hr
      exact ih _ (ho.2 e) hreading hw hr
  | factory stem content root next ih =>
    obtain ⟨-, -, hc, -, hfail, hok⟩ := ho
    obtain ⟨⟨x, w₁⟩, hx, hnext⟩ := Option.bind_eq_some_iff.mp hr
    rw [hw.target, hw.current] at hx hnext
    obtain ⟨w₁', hx', hw₁⟩ := hemit.inMethod _ hc hw hx
    have hreading₁ : w₁.generator.inProgress.length = reading := by
      rw [(hsteady.inMethod _ hx).1.inProgress, hreading]
    simp only [Recipe.follow, hx', Option.bind_some]
    cases x with
    | ok e => exact ih _ (hok _) hreading₁ hw₁ hnext
    | error e =>
      simp only [Except.map] at hnext ⊢
      rw [hfail] at hnext ⊢
      cases hnext
      exact ⟨w₁', rfl, hw₁⟩

end

namespace Generator

variable {family : Family}

/-- Emitting a covered value has the same outcome when running the emitters of the generators does. -/
theorem emitVia_blind {run : Emitter → Emission} (hf : family.Consistent)
    (hrun : ∀ e, e.IsOwn → (run e).Blind family) :
    (emitVia run).Blind family := by
  intro scope v base w w' r u hv hw hr
  rw [emitVia_eq] at hr ⊢
  have hopening := (opening_fresh hf hv hw.generator.left).trans
    (hw.generator.fresh_eq ▸ (opening_fresh hf hv hw.generator.right).symm)
  generalize w.generator.opening v = opening at hopening hr
  generalize w'.generator.opening v = opening' at hopening ⊢
  cases hopening with
  | settled r' =>
    cases hr
    exact ⟨w', rfl, hw⟩
  | @runs e g g' he hg =>
    obtain ⟨⟨r₁, u₁⟩, hu, heq⟩ := Option.map_eq_some_iff.mp hr
    cases heq
    have hstart : (w.withGenerator g).Alike family.Types (w'.withGenerator g') :=
      ⟨hw.current, hw.target, hg⟩
    obtain ⟨u₁', hu', halike⟩ := hrun _ he hv hstart hu
    exact ⟨u₁'.left v, Option.map_eq_some_iff.mpr ⟨_, hu', rfl⟩, halike.leave v⟩

/-- By induction on the depth: alike generators run the same emitter, whose recipe is the same. -/
theorem runWithin_blind (hf : family.Consistent) (depth : Nat) {e : Emitter} (he : e.IsOwn) :
    (runWithin depth e).Blind family := by
  induction depth generalizing e with
  | zero =>
    intro scope v base w w' r u hv hw hr
    cases hr
  | succ depth ih =>
    intro scope v base w w' r u hv hw hr
    have ho := Emitter.orderly (j := family.job scope w.generator.options base
      w.generator.inProgress.length) he hv
    simp only [runWithin, ← hw.generator.options]
    exact Recipe.follow_blind (emitVia_blind hf fun e he => ih he)
      (emitVia_steady (runWithin_steady depth)) ho rfl hw hr

theorem emit_blind (hf : family.Consistent) : emit.Blind family := by
  intro scope v base w w' r u hv hw hr
  have hrun (e : Emitter) (he : e.IsOwn) := runWithin_blind hf (depthBound scope.heap v) he
  exact emitVia_blind hf hrun hv hw hr

end Generator

/-- One call of a generator: what is to be emitted, and the method and the class it is written into. -/
structure Call where
  scope : Scope
  value : Value
  base : String
  current : Method
  target : Class

/-- What can be seen of an outcome: the result, the method and the class. -/
def Outcome.written (x : Outcome Expr) : Except EmitError Expr × Method × Class :=
  (x.1, x.2.current, x.2.target)

namespace Generator

def process (g : Generator) (c : Call) : Option (Outcome Expr) :=
  emit c.scope c.value c.base { generator := g, current := c.current, target := c.target }

/-- The generators that calls for values of a family lead to, successful or not. -/
inductive Past (family : Family) (options : Options) : Generator → Prop
  | fresh : Past family options { options }
  | call {g c r w} : Past family options g → family c.scope.heap c.value →
      g.process c = some (r, w) → Past family options w.generator

variable {family : Family} {options : Options} {g : Generator}

/-- Calls of alike generators begin in workshops that are alike. -/
theorem alike_process {g g' : Generator} {types : Descriptor → Prop} (h : g.Alike types g')
    (c : Call) : Workshop.Alike types
      { generator := g, current := c.current, target := c.target }
      { generator := g', current := c.current, target := c.target } :=
  ⟨rfl, rfl, h⟩

/-- Whatever values of a family a generator has emitted, it is like one that has emitted none. -/
theorem Past.alike (hf : family.Consistent) (hg : Past family options g) :
    g.Alike family.Types { options } := by
  have hbuiltin := Registry.within_builtin family.Types options.order
  induction hg with
  | fresh => exact ⟨rfl, rfl, hbuiltin, hbuiltin⟩
  | call _ hc hr ih =>
    have hgrows := emit_grows hr
    obtain ⟨u', -, halike⟩ := emit_blind hf (Family.covers_of_mem hc) (alike_process ih _) hr
    exact ⟨hgrows.options.trans ih.options, hgrows.inProgress.trans ih.inProgress,
      halike.generator.left, hbuiltin⟩

/-- Whatever a generator has been called for before, it now gives what a fresh one would give. -/
theorem process_past (hf : family.Consistent) (hg : Past family options g) {c : Call}
    (hc : family c.scope.heap c.value) :
    (g.process c).map Outcome.written =
      (({ options } : Generator).process c).map Outcome.written := by
  have hw := alike_process (hg.alike hf) c
  have hside {w w' : Workshop} (hw : w.Alike family.Types w') {x}
      (hx : (emit c.scope c.value c.base w).map Outcome.written = some x) :
      (emit c.scope c.value c.base w').map Outcome.written = some x := by
    obtain ⟨⟨r, u⟩, hu, rfl⟩ := Option.map_eq_some_iff.mp hx
    obtain ⟨u', hu', halike⟩ := emit_blind hf (Family.covers_of_mem hc) hw hu
    refine Option.map_eq_some_iff.mpr ⟨(r, u'), hu', ?_⟩
    simp only [Outcome.written, halike.current, halike.target]
  refine Option.ext fun x => ⟨fun hx => ?_, fun hx => ?_⟩
  · exact hside hw hx
  · exact hside hw.symm hx

/-- The only value of a small family: an object whose type has no emitter yet. -/
def leafObject : Object :=
  { cell := 0, type := { name := ⟨"Demo.Leaf"⟩, properties := [{ name := "Size" }] } }

def leafHeap : Heap := ⟨#[{ values := [("Size", .literal (.int32 3))] }]⟩

def leafFamily : Family := fun heap v => heap = leafHeap ∧ v = .object leafObject

theorem literal_of_leaf {property : String} {reading : Nat} {x : Value}
    (h : leafHeap.get leafObject property reading = .ok x) : ∃ l, x = .literal l := by
  by_cases hp : property = "Size"
  · subst hp
    cases h
    exact ⟨_, rfl⟩
  · have hkey : (property == "Size") = false := beq_false_of_ne hp
    have hdeclares : leafObject.type.declares property = false := by
      simp [Descriptor.declares, Descriptor.property?, leafObject, Ne.symm hp]
    have hread : (leafHeap.cell leafObject).read leafObject.type property =
        .error (.unknownProperty leafObject.type.name.full property) := by
      have hvalue : (leafHeap.cell leafObject).value? property = none := by
        simp [Heap.cell, leafHeap, leafObject, Cell.value?, List.lookup_cons, hkey]
      have hfailures : (leafHeap.cell leafObject).failures = [] := rfl
      simp [Cell.read, hvalue, hfailures, hdeclares]
    rw [Heap.get, hread] at h
    cases h

theorem covers_leafFamily {heap : Heap} {x : Value} (h : leafFamily.Covers heap x) :
    x = .object leafObject ∨ ∃ l, x = .literal l := by
  obtain ⟨v, ⟨rfl, rfl⟩, hx⟩ := h
  induction hx with
  | refl => exact .inl rfl
  | item _ hmem ih => simp at ih
  | read _ hread ih =>
    obtain ⟨rfl⟩ : _ = leafObject := by simpa using ih
    exact .inr (literal_of_leaf hread)

def leafCall : Call where
  scope := { heap := leafHeap }
  value := .object leafObject
  base := "leaf"
  current := { name := "InitializeResources" }
  target := { name := "Dictionary1" }

theorem process_past_leaf :
    ∃ g, Past leafFamily {} g ∧ g.registry.size = Registry.builtin.size + 1 ∧
      (g.process leafCall).map Outcome.written =
        (({} : Generator).process leafCall).map Outcome.written := by
  have hsize : (({} : Generator).process leafCall).any
      (fun x => x.2.generator.registry.size == Registry.builtin.size + 1) = true := by
    decide +kernel
  have hconsistent : leafFamily.Consistent := by
    constructor
    · intro heap heap' o o' ho ho' _
      obtain rfl : o = leafObject := by simpa using covers_leafFamily ho
      obtain rfl : o' = leafObject := by simpa using covers_leafFamily ho'
      rfl
    · intro heap heap' type name o hmember
      simpa using covers_leafFamily hmember
  cases hx : ({} : Generator).process leafCall with
  | none => simp [hx] at hsize
  | some x =>
    have hpast : Past leafFamily {} x.2.generator := .call .fresh ⟨rfl, rfl⟩ hx
    rw [hx, Option.any_some, beq_iff_eq] at hsize
    have hsame := process_past hconsistent hpast (c := leafCall) ⟨rfl, rfl⟩
    exact ⟨x.2.generator, hpast, hsize, hx ▸ hsame⟩

end Generator

end ResourceCode

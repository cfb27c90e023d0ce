import ResourceCode.Proofs.Emission.Guarding
import ResourceCode.Proofs.Value.Pool
import Mathlib.Data.List.Nodup

/-!
The catalog and the built-in emitters agree. Emitters read the properties that the catalog declares for their type and
no others, and a drafted emitter reads what its own type declares. As long as the getters of objects do not fail and
collections hold what they are read as, a read can therefore not fail, whatever else is wrong with a value.
-/

namespace ResourceCode

/-- A declared property of an object can be read when none of its getters fails. -/
theorem Heap.exists_get_of_declares {heap : Heap} {o : Object} {property : String}
    (hplain : (heap.cell o).failures = []) (hp : o.type.declares property = true) (reading : Nat) :
    ∃ v, heap.get o property reading = .ok v := by
  have hread : ∃ v, (heap.cell o).read o.type property = .ok v := by
    unfold Cell.read
    rw [hplain, List.lookup_nil]
    cases (heap.cell o).value? property with
    | some v => exact ⟨v, rfl⟩
    | none => exact ⟨.null, if_pos hp⟩
  obtain ⟨x, hx⟩ := hread
  obtain ⟨v, hv, -⟩ := heap.exists_get hx reading
  exact ⟨v, hv⟩

theorem KnownType.typeName_injective {k l : KnownType} (h : k.typeName = l.typeName) : k = l := by
  have hnodup : (all.map typeName).Nodup := by decide +kernel
  exact List.inj_on_of_nodup_map hnodup k.mem_all l.mem_all h

namespace Registry

/-- What the registry starts with are the built-in emitters, each under the name of its own type. -/
theorem eq_builtin_of_find? {type : TypeName} {e : Emitter} (h : builtin.find? type = some e) :
    ∃ b : Builtin, e = .builtin b ∧ b.typeName = type := by
  obtain ⟨b, -, heq⟩ := List.mem_map.mp (mem_of_find? h)
  cases heq
  exact ⟨b, rfl, rfl⟩

end Registry

namespace Family

variable {family : Family} {heap : Heap}

/-- Objects have getters that do not fail. Their types are known ones or such as no emitter is built in for, and are
told apart by their names. The collections that are read item by item hold objects of the type they are read as. -/
structure Catalogued (family : Family) : Prop where
  plain : ∀ {heap o}, family.Covers heap (.object o) → (heap.cell o).failures = []
  type : ∀ {heap o}, family.Covers heap (.object o) →
    (∃ k : KnownType, o.type = k.descriptor) ∨ Registry.builtin.find? o.type.name = none
  same : ∀ {heap heap' o o'}, family.Covers heap (.object o) → family.Covers heap' (.object o') →
    o.type.name = o'.type.name → o.type = o'.type
  element : ∀ {heap o reading items x property} {k element : KnownType},
    family.Covers heap (.object o) → o.type = k.descriptor →
    k.element? = some (property, element) → heap.get o property reading = .ok (.list items) →
    x ∈ items → ∃ s, x = .object s ∧ s.type = element.descriptor

/-- The types of the objects of a family. -/
def ObjectTypes (family : Family) (type : Descriptor) : Prop :=
  ∃ heap o, family.Covers heap (.object o) ∧ o.type = type

/-- Reads are answered by the heap, and a failed one is not admitted. -/
def conditions (family : Family) (heap : Heap) : Conditions where
  answers o property r := ∃ reading, r = heap.get o property reading
  admits e := e.source? = none
  covers := family.Covers heap
  delegates _ := False
  covers_read := fun ⟨v, hv, ho⟩ ⟨_, hr⟩ => ⟨v, hv, .read ho hr.symm⟩
  covers_item := fun ⟨v, hv, hitems⟩ hx => ⟨v, hv, .item hitems hx⟩

/-- Every property that a catalogued object declares can be read when its cell does not fail. -/
theorem readable {type : Descriptor} {o : Object} (hplain : (heap.cell o).failures = [])
    (htype : o.type = type) : (family.conditions heap).Readable type o := by
  rintro property e hp ⟨reading, hr⟩
  obtain ⟨v, hv⟩ := Heap.exists_get_of_declares hplain (htype ▸ hp) reading
  rw [hv] at hr
  cases hr

/-- An object of a known type answers as the emitter of that type expects, at every one of its properties. -/
theorem Catalogued.serves (hf : family.Catalogued) {o : Object}
    (ho : family.Covers heap (.object o)) {k : KnownType} (hk : o.type = k.descriptor) :
    (family.conditions heap).Serves k o where
  readable := readable (hf.plain ho) hk
  element := by
    rintro property element items x helement ⟨reading, hr⟩ hx
    obtain ⟨s, hs, htype⟩ := hf.element ho hk helement hr.symm hx
    cases hs
    obtain ⟨v, hv, hreaches⟩ := ho
    exact readable (hf.plain ⟨v, hv, .item (.read hreaches hr.symm) hx⟩) htype

/-- Where a built-in emitter is in charge of an object, the object is of the known type that it is made for. -/
theorem Catalogued.descriptor_eq (hf : family.Catalogued) {o : Object}
    (ho : family.Covers heap (.object o)) {e : Emitter}
    (hfind : Registry.builtin.find? o.type.name = some e) {k : KnownType}
    (hk : k.typeName = o.type.name) : o.type = k.descriptor := by
  -- a type without a built-in emitter cannot be meant
  obtain ⟨l, hl⟩ | hnone := hf.type ho
  · rw [hl] at hk ⊢
    rw [KnownType.typeName_injective hk]
  · rw [hnone] at hfind
    cases hfind

/-- Whatever emitter is in charge of a value, it meets the conditions. -/
theorem Catalogued.meets (hf : family.Catalogued) {v : Value} (hv : family.Covers heap v)
    {order : PropertyOrder} {r s : Registry} (hr : r.Within family.ObjectTypes order) {e : Emitter}
    (h : r.InCharge order v e s) (options : Options) (base : String) :
    (e.recipe options v base).Meets (family.conditions heap) fun _ => True := by
  have hlenient : (family.conditions heap).Lenient := fun _ _ _ _ => rfl
  cases h with
  | @registered _ type _ htype hfind =>
    obtain hbuiltin | ⟨d, ⟨heap', o', ho', hd⟩, hname, rfl⟩ := hr.find?_eq hfind
    · obtain ⟨b, rfl, rfl⟩ := Registry.eq_builtin_of_find? hbuiltin
      refine Builtin.meets hlenient hv options base b ?_
      rintro o k rfl hk
      have hname : o.type.name = b.typeName := Option.some.inj htype
      exact hf.serves hv (hf.descriptor_eq hv (hname ▸ hbuiltin) (hk.trans hname.symm))
    · refine Blueprint.meets hlenient hv options base order ?_
      rintro o rfl
      have hsame : o.type.name = o'.type.name := by
        rw [hd, hname]
        exact Option.some.inj htype
      exact readable (hf.plain hv) ((hf.same hv ho' hsame).trans hd)
  | drafted =>
    refine Blueprint.meets hlenient hv options base order ?_
    rintro _ ⟨⟩
    exact readable (hf.plain hv) rfl

end Family

namespace Generator

variable {family : Family} {options : Options} {g : Generator}

/-- Over a catalogued family the conditions are met by whatever emitter is put in charge. -/
theorem guards_catalogued (hf : family.Catalogued) (heap : Heap) :
    Guards (family.conditions heap)
      fun g => g.registry.Within family.ObjectTypes g.options.order where
  inProgress _ hg := hg
  settled {g v r} hg _ h := by
    rintro e rfl
    obtain ⟨more, hmore, -⟩ := hg
    obtain rfl | rfl := opening_error hmore h <;> rfl
  runs {g g' v e} hg hv h := by
    have hopens := g.opens v
    rw [h] at hopens
    cases hopens with
    | runs _ hoptions _ hcharge =>
      rw [hoptions]
      refine ⟨hcharge.within hg fun o ho _ => ⟨heap, o, ho ▸ hv, rfl⟩, fun base => ?_⟩
      exact hf.meets hv hg hcharge g.options base
  delegated _ h := h.elim

/-- Emitters are drafted only for the types of objects that are met. -/
theorem Past.within (hf : family.Catalogued) (hg : Past family options g) :
    g.registry.Within family.ObjectTypes g.options.order := by
  induction hg with
  | fresh => exact Registry.within_builtin _ _
  | @call g c r w _ hc hr ih =>
    have hcovers : (family.conditions c.scope.heap).covers c.value := Family.covers_of_mem hc
    exact ((guards_catalogued hf c.scope.heap).emitWithin _ (fun _ _ reading => ⟨reading, rfl⟩)
      hcovers ih hr).1

/-- Whatever such values a generator has been called for, and whatever else is wrong with the value it is called for
now, it does not fail because a property cannot be read. -/
theorem process_reads (hf : family.Catalogued) (hg : Past family options g) {c : Call}
    (hc : family c.scope.heap c.value) {e : EmitError} {w : Workshop}
    (h : g.process c = some (.error e, w)) :
    ∀ type property source, e ≠ .propertyAccess type property source := by
  have hcovers : (family.conditions c.scope.heap).covers c.value := Family.covers_of_mem hc
  obtain ⟨-, hgrants⟩ := (guards_catalogued hf c.scope.heap).emitWithin _
    (fun _ _ reading => ⟨reading, rfl⟩) hcovers (hg.within hf) h
  rintro type property source rfl
  cases hgrants _ rfl

end Generator

/-- The items of a property that is a list. -/
def Cell.items (c : Cell) (type : Descriptor) (property : String) : List Value :=
  match c.read type property with
  | .ok (.list items) => items
  | _ => []

namespace Heap

variable {heap : Heap} {root x : Value}

/-- The objects that can be met from a value on, when copies are not told apart. -/
def objects (heap : Heap) (root : Value) : List Object :=
  (heap.pool root).filterMap Value.object?

/-- What can be reached from a value is, apart from copies, in the finite pool of the heap and the value. -/
theorem Reaches.bare_mem_pool (h : heap.Reaches root x) : x.bare ∈ heap.pool root := by
  induction h with
  | refl => exact heap.root_mem_pool root
  | item _ hx ih => exact item_mem_pool ih hx
  | read _ hr _ =>
    obtain ⟨y, hy, hbare⟩ := read_of_get hr
    rw [hbare]
    exact read_mem_pool hy

theorem Reaches.mem_objects {o : Object} (h : heap.Reaches root (.object o)) :
    { o with copy := none } ∈ heap.objects root :=
  List.mem_filterMap.mpr ⟨_, h.bare_mem_pool, rfl⟩

/-- The items of a list that a read gives are those that the cell holds, apart from copies. -/
theorem bare_mem_items {o : Object} {property : String} {reading : Nat} {items : List Value}
    (h : heap.get o property reading = .ok (.list items)) (hx : x ∈ items) :
    ∃ y ∈ (heap.cell o).items o.type property, x.bare = y.bare := by
  obtain ⟨z, hread, hbare⟩ := read_of_get h
  cases z with
  | list others =>
    simp only [Value.bare, Value.bareAll_eq_map, Value.list.injEq] at hbare
    have hmem : x.bare ∈ others.map Value.bare := hbare ▸ List.mem_map_of_mem hx
    obtain ⟨y, hy, hyx⟩ := List.mem_map.mp hmem
    refine ⟨y, ?_, hyx.symm⟩
    rw [Cell.items, hread]
    exact hy
  | _ => cases hbare

end Heap

/-- The only value of a family, when everything that can be met has been looked at. -/
theorem Family.catalogued_of_objects {heap : Heap} {root : Value}
    (hplain : ∀ o ∈ heap.objects root, (heap.cell o).failures = [])
    (htype : ∀ o ∈ heap.objects root, (∃ k ∈ KnownType.all, o.type = k.descriptor) ∨
      (Registry.builtin.find? o.type.name).isNone = true)
    (hsame : ∀ o ∈ heap.objects root, ∀ o' ∈ heap.objects root,
      o.type.name = o'.type.name → o.type = o'.type)
    (helement : ∀ o ∈ heap.objects root, ∀ k ∈ KnownType.all, o.type = k.descriptor →
      ∀ e ∈ k.element?, ∀ x ∈ (heap.cell o).items o.type e.1,
        x.object?.map Object.type = some e.2.descriptor) :
    Family.Catalogued fun h v => h = heap ∧ v = root where
  plain := by
    rintro h o ⟨v, ⟨rfl, rfl⟩, ho⟩
    have hempty := hplain _ ho.mem_objects
    exact hempty
  type := by
    rintro h o ⟨v, ⟨rfl, rfl⟩, ho⟩
    obtain ⟨k, -, hk⟩ | hnone := htype _ ho.mem_objects
    · exact .inl ⟨k, hk⟩
    · exact .inr (Option.isNone_iff_eq_none.mp hnone)
  same := by
    rintro h h' o o' ⟨v, ⟨rfl, rfl⟩, ho⟩ ⟨v', ⟨rfl, rfl⟩, ho'⟩
    have htypes := hsame _ ho.mem_objects _ ho'.mem_objects
    exact htypes
  element := by
    rintro h o reading items x property k element ⟨v, ⟨rfl, rfl⟩, ho⟩ hk hkey hget hx
    obtain ⟨y, hy, hbare⟩ := Heap.bare_mem_items hget hx
    have htype := helement _ ho.mem_objects k k.mem_all hk _ hkey y hy
    cases y with
    | object s =>
      cases x with
      | object s' =>
        refine ⟨s', rfl, ?_⟩
        rw [(Value.object_of_bare hbare).2]
        exact Option.some.inj htype
      | _ => cases hbare
    | _ => cases htype

namespace Generator

/-- A style whose setter has a brush for its value. The color in the brush has no red, and so it cannot be written. -/
def paletteHeap : Heap :=
  ⟨#[{ values := [
        ("BasedOn", .object { cell := 1, type := { name := ⟨"Demo.Theme"⟩, properties := [{ name := "Fills" }] } }),
        ("Setters", .list [.object { cell := 2, type := KnownType.setter.descriptor }])] },
    { values := [("Fills", .list [.member KnownType.stretch.descriptor "Fill", .null])] },
    { values := [
        ("Property", .string "Border.Background"),
        ("Value", .object { cell := 3, type := KnownType.linearGradientBrush.descriptor })] },
    { values := [
        ("GradientStops", .list [.object { cell := 4, type := KnownType.gradientStop.descriptor }])] },
    { values := [("Color", .object { cell := 5, type := KnownType.color.descriptor })] },
    { values := [("G", .literal (.byte 128))] }]⟩

def paletteCall : Call where
  scope := { heap := paletteHeap }
  value := .object { cell := 0, type := KnownType.style.descriptor }
  base := "palette"
  current := { name := "InitializeResources" }
  target := { name := "Dictionary1" }

def paletteFamily : Family := fun heap v => heap = paletteHeap ∧ v = paletteCall.value

def paletteFailure : EmitError :=
  .unsupportedValue "System.Windows.Media.Color" "property 'R' is not a 32-bit integer"

/-- The second call is one of a generator that has drafted an emitter for the theme. -/
theorem process_reads_palette :
    ∃ g w, paletteFamily.Catalogued ∧ Past paletteFamily {} g ∧
      g.report.drafted = ["Demo.Theme"] ∧ g.process paletteCall = some (.error paletteFailure, w) ∧
      ∀ type property source, paletteFailure ≠ .propertyAccess type property source := by
  have hcatalogued : paletteFamily.Catalogued :=
    Family.catalogued_of_objects (by decide +kernel) (by decide +kernel) (by decide +kernel)
      (by decide +kernel)
  have hfirst : (({} : Generator).process paletteCall).any (fun x =>
      x.2.generator.report.drafted == ["Demo.Theme"] &&
        (x.2.generator.process paletteCall).any fun y => paletteFailure.isFailure y.1) = true := by
    decide +kernel
  obtain ⟨⟨r, u⟩, hu, hsecond⟩ := (Option.any_eq_true _ _).mp hfirst
  simp only [Bool.and_eq_true, beq_iff_eq] at hsecond
  obtain ⟨hdrafted, hsecond⟩ := hsecond
  have hpast : Past paletteFamily {} u.generator := .call .fresh ⟨rfl, rfl⟩ hu
  obtain ⟨⟨r', w⟩, h, hr'⟩ := (Option.any_eq_true _ _).mp hsecond
  obtain rfl := EmitError.isFailure_iff.mp hr'
  exact ⟨u.generator, w, hcatalogued, hpast, hdrafted, h,
    process_reads hcatalogued hpast ⟨rfl, rfl⟩ h⟩

end Generator

end ResourceCode

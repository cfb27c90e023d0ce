import ResourceCode.Proofs.Mirroring.Emission
import ResourceCode.Proofs.Recipe.Division

/-!
Nothing matters but what is carried over. Two values may be described differently: their types may declare their
properties in different orders, and may have other properties with whatever they hold, whether or not they can be
read. As long as the properties that are carried over are the same and hold values that are alike in turn, the same
code is written when properties are sorted by name.
-/

namespace ResourceCode

/-- Types that emitters are drafted for, each with distinct property names. -/
structure Describes (types : Descriptor → Prop) : Prop extends Draftable types where
  distinct : ∀ {d}, types d → (d.properties.map Property.name).Nodup

/-- Two values, each in its own heap, that agree in what is carried over. Of other properties nothing is said. -/
inductive Resembles (heap heap' : Heap) (types types' : Descriptor → Prop) : Value → Value → Prop
  | literal (l) : Resembles heap heap' types types' (.literal l) (.literal l)
  | member {type type' name} : type.name = type'.name → type.IsApart types →
      type'.IsApart types' → Resembles heap heap' types types' (.member type name) (.member type' name)
  | list (pairs : List (Value × Value)) :
      (∀ x ∈ pairs, Resembles heap heap' types types' x.1 x.2) →
      Resembles heap heap' types types' (.list (pairs.map (·.1))) (.list (pairs.map (·.2)))
  | object {o o'} (value value' : String → Value) : types o.type → types' o'.type →
      o.type.name = o'.type.name →
      (∀ p, p ∈ Blueprint.carriedOf o.type ↔ p ∈ Blueprint.carriedOf o'.type) →
      (∀ p ∈ Blueprint.carriedOf o.type, (heap.cell o).read o.type p = .ok (value p)) →
      (∀ p ∈ Blueprint.carriedOf o.type, (heap'.cell o').read o'.type p = .ok (value' p)) →
      (∀ p ∈ Blueprint.carriedOf o.type, Resembles heap heap' types types' (value p) (value' p)) →
      Resembles heap heap' types types' (.object o) (.object o')

namespace Blueprint

theorem nodup_carriedOf {d : Descriptor} (h : (d.properties.map Property.name).Nodup) :
    (carriedOf d).Nodup :=
  h.sublist (List.filter_sublist.map Property.name)

/-- Sorted by name, what is carried over does not depend on the order of the declarations. -/
theorem carried_congr {d d' : Descriptor} (hn : (carriedOf d).Nodup) (hn' : (carriedOf d').Nodup)
    (h : ∀ p, p ∈ carriedOf d ↔ p ∈ carriedOf d') :
    (ofDescriptor d .name).carried = (ofDescriptor d' .name).carried :=
  sortBy_congr ((List.perm_ext_iff_of_nodup hn hn').mpr h) fun _ _ _ _ hname => hname

end Blueprint

/-- A choice for every item of a list. -/
theorem exists_choices {α β : Type} {P : α → β → Prop} {xs : List α} (h : ∀ x ∈ xs, ∃ y, P x y) :
    ∃ zs : List (α × β), zs.map (·.1) = xs ∧ ∀ z ∈ zs, P z.1 z.2 := by
  induction xs with
  | nil => exact ⟨[], rfl, by simp⟩
  | cons x rest ih =>
    obtain ⟨y, hy⟩ := h x List.mem_cons_self
    obtain ⟨zs, rfl, hzs⟩ := ih fun x' hx' => h x' (List.mem_cons_of_mem x hx')
    refine ⟨(x, y) :: zs, rfl, fun z hz => ?_⟩
    rcases List.mem_cons.mp hz with rfl | hz
    · exact hy
    · exact hzs z hz

variable {heap heap' : Heap} {types types' : Descriptor → Prop} {v v' : Value}

/-- Values that resemble each other have a tree in common. -/
theorem Resembles.exists_tree (ht : Describes types) (ht' : Describes types')
    (h : Resembles heap heap' types types' v v') :
    ∃ t, Mirrors heap types .name v t ∧ Mirrors heap' types' .name v' t := by
  induction h with
  | literal l => exact ⟨.literal l, .literal l, .literal l⟩
  | @member type type' name hname hd hd' =>
    refine ⟨.constant (.named (Text.afterLastDot type.name.full)) name, .member hd, ?_⟩
    rw [hname]
    exact .member hd'
  | list pairs _ ih =>
    obtain ⟨zs, rfl, hzs⟩ := exists_choices ih
    refine ⟨.list (zs.map (·.2)), ?_, ?_⟩
    · rw [List.map_map]
      exact .of_items zs fun z hz => (hzs z hz).1
    · rw [List.map_map]
      exact .of_items zs fun z hz => (hzs z hz).2
  | @object o o' value value' hm hm' hname hcarried hread hread' _ ih =>
    -- sorted by name, both objects list the same members in the same order
    have hsorted := Blueprint.carried_congr (Blueprint.nodup_carriedOf (ht.distinct hm))
      (Blueprint.nodup_carriedOf (ht'.distinct hm')) hcarried
    have hall (p : String) (hp : p ∈ (Blueprint.ofDescriptor o.type .name).carried) :
        ∃ t, p ∈ Blueprint.carriedOf o.type ∧ Mirrors heap types .name (value p) t ∧
          Mirrors heap' types' .name (value' p) t := by
      have hmem := Blueprint.mem_carried_iff.mp hp
      obtain ⟨t, hleft, hright⟩ := ih p hmem
      exact ⟨t, hmem, hleft, hright⟩
    obtain ⟨members, hmembers, hboth⟩ := exists_choices hall
    refine ⟨.object (.named (Text.afterLastDot o.type.name.full)) members, ?_, ?_⟩
    · exact .of_members value members hm hmembers (fun m hmem => hread m.1 (hboth m hmem).1)
        fun m hmem => (hboth m hmem).2.1
    · rw [hname]
      rw [hsorted] at hmembers
      exact .of_members value' members hm' hmembers (fun m hmem => hread' m.1 (hboth m hmem).1)
        fun m hmem => (hboth m hmem).2.2

namespace Generator

/-- Fresh generators that sort properties by name write the same code for values that resemble each other. -/
theorem emit_resembling (ht : Describes types) (ht' : Describes types')
    (h : Resembles heap heap' types types' v v') (resources : Option Resources) (nested : Bool)
    (separator base : String) (current : Method) (target : Class) :
    ∃ e statements w w',
      emit { heap, resources, nested } v base
          { generator := { options := { order := .name, separator } }, current, target } =
        some (.ok e, w) ∧
      emit { heap := heap', resources, nested } v' base
          { generator := { options := { order := .name, separator } }, current, target } =
        some (.ok e, w') ∧
      w.current = { current with body := current.body ++ statements } ∧ w'.current = w.current ∧
      w.target = target ∧ w'.target = target := by
  obtain ⟨t, hleft, hright⟩ := h.exists_tree ht ht'
  obtain ⟨w, hemit, hcurrent, htarget⟩ := emit_mirrors { heap, resources, nested } ht.toDraftable
    { order := .name, separator } hleft base current target
  obtain ⟨w', hemit', hcurrent', htarget'⟩ := emit_mirrors { heap := heap', resources, nested }
    ht'.toDraftable { order := .name, separator } hright base current target
  exact ⟨_, _, w, w', hemit, hemit', hcurrent, hcurrent'.trans hcurrent.symm, htarget, htarget'⟩

def shapeType : Descriptor := .enumeration "Demo.Shape" ["Round", "Square"]

def lidType : Descriptor := { name := ⟨"Demo.Lid"⟩, properties := [{ name := "Shape" }] }

def potType : Descriptor :=
  { name := ⟨"Demo.Pot"⟩, properties := [{ name := "Size" }, { name := "Lid" }] }

def pot : Object := { cell := 0, type := potType }

def lid : Object := { cell := 1, type := lidType }

def potHeap : Heap :=
  ⟨#[{ values := [("Size", .literal (.int32 3)), ("Lid", .object lid)] },
    { values := [("Shape", .member shapeType "Round")] }]⟩

/-- A lid that knows its pot. -/
def knowingLidType : Descriptor :=
  { name := ⟨"Demo.Lid"⟩, properties := [.readOnly "Pot", { name := "Shape" }] }

/-- Declared in another order, with a weight that cannot be read. -/
def heavyPotType : Descriptor :=
  { name := ⟨"Demo.Pot"⟩, properties := [.readOnly "Weight", { name := "Lid" }, { name := "Size" }] }

def heavyPot : Object := { cell := 0, type := heavyPotType }

def knowingLid : Object := { cell := 1, type := knowingLidType }

def heavyPotHeap : Heap :=
  ⟨#[{ failures := [("Weight", "no scales")]
       values := [("Size", .literal (.int32 3)), ("Lid", .object knowingLid)] },
    { values := [("Pot", .object heavyPot), ("Shape", .member shapeType "Round")] }]⟩

theorem describes_pots : Describes (· ∈ [potType, lidType]) :=
  ⟨draftable_of_nodup (by decide) (by decide +kernel), fun hd => by
    rcases List.mem_pair.mp hd with rfl | rfl <;> decide⟩

theorem describes_heavyPots : Describes (· ∈ [heavyPotType, knowingLidType]) :=
  ⟨draftable_of_nodup (by decide) (by decide +kernel), fun hd => by
    rcases List.mem_pair.mp hd with rfl | rfl <;> decide⟩

theorem resembles_pots :
    Resembles potHeap heavyPotHeap (· ∈ [potType, lidType]) (· ∈ [heavyPotType, knowingLidType])
      (.object pot) (.object heavyPot) := by
  have hshape : shapeType.IsApart (· ∈ [potType, lidType]) :=
    ⟨by decide +kernel, fun hd => by rcases List.mem_pair.mp hd with rfl | rfl <;> decide⟩
  have hshape' : shapeType.IsApart (· ∈ [heavyPotType, knowingLidType]) :=
    ⟨by decide +kernel, fun hd => by rcases List.mem_pair.mp hd with rfl | rfl <;> decide⟩
  have hlid : Resembles potHeap heavyPotHeap _ _ (.object lid) (.object knowingLid) :=
    .object (fun _ => .member shapeType "Round") (fun _ => .member shapeType "Round")
      (by simp [lid]) (by simp [knowingLid]) rfl (fun p => Iff.rfl)
      (fun p hp => by obtain rfl := List.mem_singleton.mp hp; rfl)
      (fun p hp => by obtain rfl := List.mem_singleton.mp hp; rfl)
      fun p hp => .member rfl hshape hshape'
  refine .object (fun p => if p = "Size" then .literal (.int32 3) else .object lid)
    (fun p => if p = "Size" then .literal (.int32 3) else .object knowingLid)
    List.mem_cons_self List.mem_cons_self rfl (fun p => ?_) (fun p hp => ?_) (fun p hp => ?_) fun p hp => ?_
  · have hleft : Blueprint.carriedOf pot.type = ["Size", "Lid"] := rfl
    have hright : Blueprint.carriedOf heavyPot.type = ["Lid", "Size"] := rfl
    simp [hleft, hright, or_comm]
  · rcases List.mem_pair.mp hp with rfl | rfl <;> rfl
  · rcases List.mem_pair.mp hp with rfl | rfl <;> rfl
  · rcases List.mem_pair.mp hp with rfl | rfl
    · exact .literal (.int32 3)
    · exact hlid

theorem emit_resembling_pots :
    ∃ e statements w w',
      emit { heap := potHeap } (.object pot) "pot"
          { generator := { options := { order := .name, separator := "_" } }
            current := { name := "InitializeResources" }
            target := { name := "Dictionary1" } } = some (.ok e, w) ∧
      emit { heap := heavyPotHeap } (.object heavyPot) "pot"
          { generator := { options := { order := .name, separator := "_" } }
            current := { name := "InitializeResources" }
            target := { name := "Dictionary1" } } = some (.ok e, w') ∧
      w.current = { name := "InitializeResources", body := [] ++ statements } ∧
      w'.current = w.current ∧ w.target = { name := "Dictionary1" } ∧
      w'.target = { name := "Dictionary1" } :=
  emit_resembling describes_pots describes_heavyPots resembles_pots none false "_" "pot"
    { name := "InitializeResources" } { name := "Dictionary1" }

end Generator

end ResourceCode

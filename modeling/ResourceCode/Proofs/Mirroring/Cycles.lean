import ResourceCode.Proofs.Mirroring.Emission

/-!
Cycles are found exactly. The objects of a table may hold each other, and lists of each other, in any way. Emission
comes to an end all the same. It fails when some object that can be met leads back to itself, and only then: that an
object is met more than once is no reason.
-/

namespace ResourceCode

open Relation (ReflTransGen TransGen)

/-- What the objects of a table may hold. -/
inductive Tabled (table : List Object) : Value → Prop
  | literal (l) : Tabled table (.literal l)
  | member {type name} : type.IsApart (· ∈ table.map Object.type) →
      Tabled table (.member type name)
  | object {o} : o ∈ table → Tabled table (.object o)
  | list {items} : (∀ x ∈ items, Tabled table x) → Tabled table (.list items)

/-- Objects that stand in the heap for good, of types that emitters are drafted for. Every property that is carried
over can be read and holds what an object of the table may hold. -/
structure IsTable (heap : Heap) (table : List Object) : Prop where
  lasting : ∀ o ∈ table, o.copy = none
  draftable : Draftable (· ∈ table.map Object.type)
  reads : ∀ o ∈ table, ∀ property ∈ Blueprint.carriedOf o.type,
    ∃ x, (heap.cell o).read o.type property = .ok x ∧ Tabled table x

variable {heap : Heap} {table : List Object} {v x : Value} {o : Object}

theorem Tabled.mem (h : Tabled table (.object o)) : o ∈ table := by
  cases h with
  | object ho => exact ho

theorem Tabled.item {items : List Value} (h : Tabled table (.list items)) (hx : x ∈ items) :
    Tabled table x := by
  cases h with
  | list hitems => exact hitems x hx

namespace IsTable

/-- There is only one copy of what the objects of a table hold. -/
theorem copied_eq (h : IsTable heap table) (hv : Tabled table v) (n : Nat) : v.copied n = v := by
  induction hv with
  | literal l => rfl
  | member hd => rfl
  | @object o ho =>
    rw [Value.copied, h.lasting o ho, Option.map_none, ← h.lasting o ho]
  | @list items hitems ih =>
    rw [Value.copied, Value.copiedAll_eq_map, List.map_congr_left ih, List.map_id']

/-- Every carried property of an object in the table can be read, and what it holds is in the table again. -/
theorem get (h : IsTable heap table) (ho : o ∈ table) {property : String}
    (hp : property ∈ Blueprint.carriedOf o.type) (reading : Nat) :
    ∃ x, heap.get o property reading = .ok x ∧ Tabled table x := by
  obtain ⟨x, hread, hx⟩ := h.reads o ho property hp
  obtain ⟨y, hget, rfl | ⟨n, rfl⟩⟩ := heap.exists_get hread reading
  · exact ⟨y, hget, hx⟩
  · exact ⟨x.copied n, hget, (h.copied_eq hx n).symm ▸ hx⟩

/-- So is all that a value of the table leads to. -/
theorem leads (h : IsTable heap table) (hv : Tabled table v) (hx : heap.Leads v x) :
    Tabled table x := by
  cases hx with
  | item hmem => exact hv.item hmem
  | read hp hget =>
    obtain ⟨y, hget', hy⟩ := h.get hv.mem hp _
    rw [Except.ok.inj (hget.symm.trans hget')]
    exact hy

theorem leads_trans (h : IsTable heap table) (hv : Tabled table v)
    (hx : TransGen heap.Leads v x) : Tabled table x := by
  induction hx with
  | single hstep => exact h.leads hv hstep
  | tail _ hstep ih => exact h.leads ih hstep

/-- The values of a table are closed under going to items and to carried properties. -/
theorem closed (h : IsTable heap table) :
    heap.Closed (· ∈ table.map Object.type) (Tabled table) where
  member hv := by
    cases hv with
    | member hd => exact hd
  item hv hx := hv.item hx
  object hv := List.mem_map_of_mem hv.mem
  read hv hp reading := h.get hv.mem hp reading
  distinct {o o'} hv hx hbare := by
    have ho := h.lasting o hv.mem
    have ho' := h.lasting o' (h.leads_trans hv hx).mem
    obtain ⟨hcell, htype⟩ := Value.object_of_bare hbare
    cases o
    cases o'
    simp_all

end IsTable

namespace Generator

/-- Whatever the objects of a table hold, emission comes to an end, and it takes for a cycle what is one: it fails
exactly when from the value on an object is met that leads back to itself, and succeeds otherwise. -/
theorem emit_cyclic_iff (scope : Scope) (h : IsTable scope.heap table) (hv : Tabled table v)
    (options : Options) (base : String) (current : Method) (target : Class) :
    ∃ r w, emit scope v base { generator := { options }, current, target } = some (r, w) ∧
      ((∃ typeName, r = .error (.unsupportedValue typeName "cyclic reference")) ↔
        ∃ o, scope.heap.Circles v o) ∧
      ((∃ e, r = .ok e) ↔ ¬ ∃ o, scope.heap.Circles v o) := by
  rcases emit_settles h.draftable h.closed hv options base current target with
    ⟨e, w, t, statements, hemit, ht, -⟩ | ⟨x, w, hemit, o, ho, rfl⟩
  · have hnone : ¬ ∃ o, scope.heap.Circles v o := fun ⟨o, ho⟩ => ht.not_circles o ho
    refine ⟨.ok e, w, hemit, ⟨?_, fun hsome => absurd hsome hnone⟩, fun _ => hnone, fun _ => ⟨e, rfl⟩⟩
    rintro ⟨typeName, herror⟩
    cases herror
  · refine ⟨_, w, hemit, ⟨fun _ => ⟨o, ho⟩, fun _ => ⟨_, rfl⟩⟩, ?_, fun hnone => absurd ⟨o, ho⟩ hnone⟩
    rintro ⟨e, hok⟩
    cases hok

def ringType : Descriptor :=
  { name := ⟨"Demo.Ring"⟩, properties := [.readOnly "Owner", { name := "Beads" }] }

def beadType : Descriptor := { name := ⟨"Demo.Bead"⟩, properties := [{ name := "Size" }] }

def ring : Object := { cell := 0, type := ringType }

def bead : Object := { cell := 1, type := beadType }

/-- One bead stands twice in the list of a ring, and the ring itself stands in it as well. -/
def ringHeap : Heap :=
  ⟨#[{ values := [("Beads", .list [.object bead, .object bead, .object ring])] },
    { values := [("Size", .literal (.int32 3))] }]⟩

theorem isTable_ring : IsTable ringHeap [ring, bead] := by
  have hring : Tabled [ring, bead] (.object ring) := .object List.mem_cons_self
  have hbead : Tabled [ring, bead] (.object bead) :=
    .object (List.mem_cons_of_mem _ List.mem_cons_self)
  refine ⟨by decide, draftable_of_nodup (by decide) (by decide +kernel), ?_⟩
  intro o ho property hp
  rcases List.mem_pair.mp ho with rfl | rfl
  · obtain rfl : property = "Beads" := List.mem_singleton.mp hp
    refine ⟨_, rfl, .list fun x hx => ?_⟩
    simp only [List.mem_cons, List.not_mem_nil, or_false] at hx
    rcases hx with rfl | rfl | rfl
    · exact hbead
    · exact hbead
    · exact hring
  · obtain rfl : property = "Size" := List.mem_singleton.mp hp
    exact ⟨_, rfl, .literal _⟩

theorem circles_ring : ringHeap.Circles (.object ring) ring := by
  have hget : ringHeap.get ring "Beads" 0 = .ok (.list [.object bead, .object bead, .object ring]) :=
    rfl
  exact ⟨.refl, .head (.read (by decide) hget) (.single (.item (by simp)))⟩

theorem not_circles_beads (o : Object) :
    ¬ ringHeap.Circles (.list [.object bead, .object bead]) o := by
  have hbead : Mirrors ringHeap (· = beadType) .name (.object bead)
      (.object (.named "Bead") [("Size", .literal (.int32 3))]) := by
    refine .of_members (fun _ => .literal (.int32 3)) _ rfl (by decide +kernel) ?_ ?_
    · intro m hm
      obtain rfl := List.mem_singleton.mp hm
      rfl
    · intro m hm
      obtain rfl := List.mem_singleton.mp hm
      exact .literal _
  have hbeads := Mirrors.list [(.object bead, _), (.object bead, _)] fun x hx => by
    rcases List.mem_pair.mp hx with rfl | rfl
    · exact hbead
    · exact hbead
  exact hbeads.not_circles o

theorem emit_cyclic_iff_ring :
    (∃ r w, emit { heap := ringHeap } (.object ring) "ring"
        { current := { name := "InitializeResources" }, target := { name := "Dictionary1" } } =
          some (r, w) ∧
      ∃ typeName, r = .error (.unsupportedValue typeName "cyclic reference")) ∧
    ∃ r w, emit { heap := ringHeap } (.list [.object bead, .object bead]) "beads"
        { current := { name := "InitializeResources" }, target := { name := "Dictionary1" } } =
          some (r, w) ∧
      ∃ e, r = .ok e := by
  have hbead : Tabled [ring, bead] (.object bead) :=
    .object (List.mem_cons_of_mem _ List.mem_cons_self)
  have hbeads : Tabled [ring, bead] (.list [.object bead, .object bead]) := .list fun x hx => by
    rcases List.mem_pair.mp hx with rfl | rfl
    · exact hbead
    · exact hbead
  obtain ⟨r, w, hring, herror, -⟩ := emit_cyclic_iff { heap := ringHeap } isTable_ring
    (.object List.mem_cons_self) {} "ring" { name := "InitializeResources" }
    { name := "Dictionary1" }
  obtain ⟨r', w', hlist, -, hok⟩ := emit_cyclic_iff { heap := ringHeap } isTable_ring
    hbeads {} "beads" { name := "InitializeResources" } { name := "Dictionary1" }
  refine ⟨⟨r, w, hring, herror.mpr ⟨ring, circles_ring⟩⟩, r', w', hlist, hok.mpr ?_⟩
  rintro ⟨o, ho⟩
  exact not_circles_beads o ho

end Generator

end ResourceCode

import ResourceCode.Recipe
import Mathlib.Data.List.Nodup
import Mathlib.Data.String.Basic

/-!
The two lists of a blueprint. Every declaration of a property is in one of them: among the properties that are
carried over when nothing is in the way, and otherwise among those that are left out, with the obstacle. Both lists
follow the declarations, or the names by code points. Sorting leaves declarations of one name in their order, so
when every name is declared once, nothing depends on the order of the declarations.
-/

namespace ResourceCode

section Sorting

variable {α β : Type} {name : α → String} {items : List α}

/-- Items in the order of their names. -/
def sortBy (name : α → String) (items : List α) : List α :=
  items.mergeSort fun a b => decide (name a ≤ name b)

/-- Sorting only changes the order. -/
theorem sortBy_perm (name : α → String) (items : List α) : (sortBy name items).Perm items :=
  List.mergeSort_perm items _

theorem nameLE_trans (name : α → String) (a b c : α) :
    decide (name a ≤ name b) = true → decide (name b ≤ name c) = true →
      decide (name a ≤ name c) = true := by
  simpa using String.le_trans

theorem nameLE_total (name : α → String) (a b : α) :
    (decide (name a ≤ name b) || decide (name b ≤ name a)) = true := by
  simpa using String.le_total (name a) (name b)

/-- What is sorted stands in order. -/
theorem pairwise_sortBy_le (name : α → String) (items : List α) :
    (sortBy name items).Pairwise fun a b => name a ≤ name b := by
  refine (List.pairwise_mergeSort (nameLE_trans name) (nameLE_total name) items).imp ?_
  intro a b hab
  exact of_decide_eq_true hab

/-- The items of one name keep their order. -/
theorem filter_sortBy (name : α → String) (n : String) (items : List α) :
    (sortBy name items).filter (fun a => name a = n) = items.filter fun a => name a = n := by
  -- among themselves they are sorted already, so sorting everything moves none of them past another
  have hsub : (items.filter fun a => name a = n).Sublist (sortBy name items) := by
    refine List.sublist_mergeSort (nameLE_trans name) (nameLE_total name) ?_ List.filter_sublist
    refine List.pairwise_of_forall_mem_list fun a ha b hb => ?_
    simp only [List.mem_filter, decide_eq_true_eq] at ha hb
    simp [ha.2, hb.2]
  have hsame := hsub.filter fun a => name a = n
  simp only [List.filter_filter, Bool.and_self] at hsame
  exact (hsame.eq_of_length ((sortBy_perm name items).filter _).length_eq.symm).symm

/-- What holds of any two items in their order holds, after sorting, of those of one name. -/
theorem pairwise_sortBy {R : α → α → Prop} (h : items.Pairwise R) :
    (sortBy name items).Pairwise fun a b => name a < name b ∨ name a = name b ∧ R a b := by
  refine List.pairwise_iff_forall_sublist.mpr fun {a b} hab => ?_
  have hle := List.pairwise_iff_forall_sublist.mp (pairwise_sortBy_le name items) hab
  rcases lt_or_eq_of_le hle with hlt | heq
  · exact .inl hlt
  · -- the two are found in this order among the items of their name, which were not moved
    have hclass := hab.filter fun x => name x = name b
    rw [filter_sortBy] at hclass
    have hboth : [a, b].filter (fun x => name x = name b) = [a, b] := by simp [heq]
    rw [hboth] at hclass
    exact .inr ⟨heq, List.pairwise_iff_forall_sublist.mp h (hclass.trans List.filter_sublist)⟩

/-- Names may be taken before or after sorting. -/
theorem map_sortBy (name' : β → String) {f : α → β} (hf : ∀ a, name' (f a) = name a) :
    (sortBy name items).map f = sortBy name' (items.map f) :=
  List.map_mergeSort fun a _ b _ => by rw [hf, hf]

/-- Sorting does not depend on the order of the items when each has a name of its own. -/
theorem sortBy_congr {items' : List α} (h : items.Perm items')
    (hname : ∀ a ∈ items, ∀ b ∈ items, name a = name b → a = b) :
    sortBy name items = sortBy name items' := by
  have hperm : (sortBy name items).Perm (sortBy name items') :=
    (sortBy_perm name items).trans (h.trans (sortBy_perm name items').symm)
  refine hperm.eq_of_pairwise (fun a b ha hb hab hba => ?_) (pairwise_sortBy_le name items)
    (pairwise_sortBy_le name items')
  have ha' := (sortBy_perm name items).mem_iff.mp ha
  have hb' := h.mem_iff.mpr ((sortBy_perm name items').mem_iff.mp hb)
  exact hname a ha' b hb' (String.le_antisymm hab hba)

end Sorting

/-- Items with their positions stand in the order of the positions. -/
theorem pairwise_zipIdx {α : Type} (xs : List α) : xs.zipIdx.Pairwise fun p q => p.2 < q.2 := by
  refine List.pairwise_map.mp ?_
  rw [List.zipIdx_map_snd]
  exact List.pairwise_lt_range' 1

namespace Blueprint

/-- Which of two properties comes first in a list, each with the position of its declaration: the one declared
first, or else the one whose name is smaller by code points and, under one name, the one declared first. -/
def Precedes : PropertyOrder → Property × Nat → Property × Nat → Prop
  | .declared, p, q => p.2 < q.2
  | .name, p, q => p.1.name < q.1.name ∨ p.1.name = q.1.name ∧ p.2 < q.2

/-- The name of a declared property, and what is in its way. -/
def status (p : Property × Nat) : String × Option Obstacle := (p.1.name, p.1.obstacle?)

/-- The declarations of a type, each with its position, divided between the lists of a blueprint: those of `kept`
are carried over, and those of `left` are left out. -/
structure Divides (type : Descriptor) (order : PropertyOrder) (kept left : List (Property × Nat))
    (b : Blueprint) : Prop where
  complete : (kept ++ left).Perm type.properties.zipIdx
  kept_ordered : kept.Pairwise (Precedes order)
  left_ordered : left.Pairwise (Precedes order)
  carried : b.carried.map (fun name => (name, none)) = kept.map status
  skipped : b.skipped.map (fun (name, why) => (name, some why)) = left.map status

variable {type other : Descriptor} {order : PropertyOrder} {kept left : List (Property × Nat)}
  {b : Blueprint}

/-- The carried names are those of the declared properties that can be carried over, in order. -/
theorem map_carried (declared : List (Property × Nat)) :
    (((declared.map Prod.fst).filter Property.isCarried).map Property.name).map
        (fun name => (name, none)) =
      (declared.filter fun p => p.1.isCarried).map status := by
  induction declared with
  | nil => rfl
  | cons p rest ih =>
    cases hp : p.1.obstacle? with
    | none => simpa [Property.isCarried, status, hp] using ih
    | some why => simpa [Property.isCarried, hp] using ih

/-- The skipped names are those of the others, each with its obstacle. -/
theorem map_skipped (declared : List (Property × Nat)) :
    ((declared.map Prod.fst).filterMap obstacleOf?).map (fun (name, why) => (name, some why)) =
      (declared.filter fun p => !p.1.isCarried).map status := by
  induction declared with
  | nil => rfl
  | cons p rest ih =>
    cases hp : p.1.obstacle? with
    | none => simpa [Property.isCarried, obstacleOf?, hp] using ih
    | some why => simpa [Property.isCarried, obstacleOf?, status, hp] using ih

/-- In declaration order the declarations are split as they stand. -/
theorem divides_declared (type : Descriptor) :
    Divides type .declared (type.properties.zipIdx.filter fun p => p.1.isCarried)
      (type.properties.zipIdx.filter fun p => !p.1.isCarried) (ofDescriptor type .declared) where
  complete := List.filter_append_perm _ _
  kept_ordered := (pairwise_zipIdx _).filter _
  left_ordered := (pairwise_zipIdx _).filter _
  carried := by
    have h := map_carried type.properties.zipIdx
    rwa [List.zipIdx_map_fst] at h
  skipped := by
    have h := map_skipped type.properties.zipIdx
    rwa [List.zipIdx_map_fst] at h

/-- Sorting the lists sorts the declarations in them. -/
theorem Divides.sorted (h : Divides type .declared kept left b) :
    Divides type .name (sortBy (·.1.name) kept) (sortBy (·.1.name) left)
      { b with carried := sortBy (·) b.carried, skipped := sortBy Prod.fst b.skipped } where
  complete := ((sortBy_perm _ kept).append (sortBy_perm _ left)).trans h.complete
  kept_ordered := pairwise_sortBy h.kept_ordered
  left_ordered := pairwise_sortBy h.left_ordered
  carried := by
    rw [map_sortBy Prod.fst fun _ => rfl, h.carried]
    exact (map_sortBy Prod.fst fun _ => rfl).symm
  skipped := by
    rw [map_sortBy Prod.fst fun _ => rfl, h.skipped]
    exact (map_sortBy Prod.fst fun _ => rfl).symm

/-- In either order the declarations are divided. -/
theorem exists_divides (type : Descriptor) (order : PropertyOrder) :
    ∃ kept left, Divides type order kept left (ofDescriptor type order) := by
  cases order with
  | declared => exact ⟨_, _, divides_declared type⟩
  | name => exact ⟨_, _, (divides_declared type).sorted⟩

/-- When every name is declared once, every name is left out once at most. -/
theorem Divides.nodup_skipped (h : Divides type order kept left b)
    (hn : (type.properties.map Property.name).Nodup) : (b.skipped.map Prod.fst).Nodup := by
  have hnames : b.skipped.map Prod.fst = left.map (·.1.name) := by
    have hfirst := congrArg (List.map Prod.fst) h.skipped
    simpa [status, Function.comp_def] using hfirst
  have hall := (h.complete.map Prod.fst).map Property.name
  rw [List.zipIdx_map_fst, List.map_map, List.map_append] at hall
  rw [hnames]
  exact (List.nodup_append.mp (hall.nodup_iff.mpr hn)).2.1

/-- What is carried over are bare names, so declarations of one name need no order among themselves. -/
theorem carried_eq_of_perm (h : other.properties.Perm type.properties) :
    (ofDescriptor other .name).carried = (ofDescriptor type .name).carried :=
  sortBy_congr ((h.filter _).map _) fun _ _ _ _ hname => hname

/-- The skipped properties do not depend on the order of the declarations when their names are distinct. -/
theorem skipped_eq_of_perm (h : other.properties.Perm type.properties)
    (hn : (type.properties.map Property.name).Nodup) :
    (ofDescriptor other .name).skipped = (ofDescriptor type .name).skipped := by
  have hnodup := (divides_declared type).nodup_skipped hn
  exact (sortBy_congr (h.symm.filterMap _) (List.inj_on_of_nodup_map hnodup)).symm

/-- The lists of a blueprint lose nothing: every declaration is in one of them, in its place and with its obstacle
if it has one. Sorted by name they hold what they hold in declaration order, and are the same for every order of
the declarations when no two of these have one name. -/
theorem ofDescriptor_divides (type : Descriptor) :
    (∀ order, ∃ kept left, Divides type order kept left (ofDescriptor type order)) ∧
    (ofDescriptor type .name).carried.Perm (ofDescriptor type .declared).carried ∧
    (ofDescriptor type .name).skipped.Perm (ofDescriptor type .declared).skipped ∧
    ((type.properties.map Property.name).Nodup →
      ∀ other : Descriptor, other.properties.Perm type.properties →
        (ofDescriptor other .name).carried = (ofDescriptor type .name).carried ∧
        (ofDescriptor other .name).skipped = (ofDescriptor type .name).skipped) := by
  refine ⟨exists_divides type, sortBy_perm (·) _, sortBy_perm Prod.fst _, fun hn other h => ?_⟩
  exact ⟨carried_eq_of_perm h, skipped_eq_of_perm h hn⟩

/-- A shelf with two obstacles for one name, and with names beyond the letters of English. -/
def shelfType : Descriptor :=
  { name := ⟨"Demo.Shelf"⟩
    properties := [.writeOnly "😀", .readOnly "Item", { name := "Item" }, .indexer "Item" 1, .writeOnly "ﬁ"] }

example : (ofDescriptor shelfType .name).skipped =
    [("Item", .noSetter), ("Item", .needsArguments), ("ﬁ", .noGetter), ("😀", .noGetter)] := by
  cbv

def frameType : Descriptor :=
  { name := ⟨"Demo.Frame"⟩
    properties := [{ name := "Title" }, .readOnly "Area", { name := "Count" }, .indexer "Item" 2,
      .writeOnly "Secret"] }

/-- The frame with its declarations turned round. -/
def turnedFrameType : Descriptor := { frameType with properties := frameType.properties.reverse }

theorem ofDescriptor_divides_frame :
    (frameType.properties.map Property.name).Nodup ∧
      turnedFrameType.properties.Perm frameType.properties ∧
      (ofDescriptor turnedFrameType .name).carried = (ofDescriptor frameType .name).carried ∧
      (ofDescriptor turnedFrameType .name).skipped = (ofDescriptor frameType .name).skipped := by
  have hn : (frameType.properties.map Property.name).Nodup := by decide
  have hperm : turnedFrameType.properties.Perm frameType.properties := List.reverse_perm _
  exact ⟨hn, hperm, (ofDescriptor_divides frameType).2.2.2 hn turnedFrameType hperm⟩

end Blueprint

end ResourceCode

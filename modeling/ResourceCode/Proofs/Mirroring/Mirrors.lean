import ResourceCode.Proofs.Emission.Drafting
import ResourceCode.Proofs.Options.Naming
import ResourceCode.Proofs.Value.Pool
import Mathlib.Logic.Relation

/-!
Trees, and the code for them. A tree says what a value is made of and nothing about the identity of its objects. The
code for a tree depends on the tree, the base name and the separator only: the code for each member or item under a name
of its own, then the construction, then a statement for each part that puts it in its place.

From lists one gets to their items, and from objects to what the properties hold that are carried over. A value from
which every such way comes to an end has a tree, whatever copies the reads give; it is the only one, and no way from a
value with a tree leads back.
-/

namespace ResourceCode

inductive Tree where
  | literal (l : Literal)
  | constant (type : TypeRef) (name : String)
  | object (tag : TypeRef) (members : List (String × Tree))
  | list (items : List Tree)

/-- The type that lists are rebuilt with. -/
def TypeRef.objectList : TypeRef := .generic "List" [.object]

/-- A property with its value and the tree of the value. -/
structure Piece where
  member : String
  value : Value
  tree : Tree

/-- Statements, and the expression that they lead up to. -/
structure Code where
  statements : List Statement
  expr : Expr

/-- The statements of all parts, a construction, and a statement that puts each part into it. -/
def Code.whole (base : String) (tag : TypeRef) (parts : List (String × Code))
    (put : String → Expr → Statement) : Code where
  statements := parts.flatMap (·.2.statements) ++
    .declare base tag (some (.new tag [])) :: parts.map fun part => put part.1 part.2.expr
  expr := .var base

namespace Tree

mutual

def code (o : Options) (base : String) : Tree → Code
  | .literal l => ⟨[], .literal l⟩
  | .constant type name => ⟨[], .field (.type type) name⟩
  | .object tag members => .whole base tag (memberCodes o base members) fun member e =>
    .assign (.field (.var base) member) e
  | .list items => .whole base .objectList (itemCodes o base 0 items) fun _ e =>
    .expr (.call (.var base) "Add" [e])

def memberCodes (o : Options) (base : String) : List (String × Tree) → List (String × Code)
  | [] => []
  | m :: rest => memberCode o base m :: memberCodes o base rest

def memberCode (o : Options) (base : String) : String × Tree → String × Code
  | (name, t) => (name, t.code o (o.nestedName base name))

/-- The items are counted from `n`. -/
def itemCodes (o : Options) (base : String) (n : Nat) : List Tree → List (String × Code)
  | [] => []
  | t :: rest => (toString n, t.code o (o.nestedName base (toString n))) :: itemCodes o base (n + 1) rest

end

variable {o : Options} {base : String}

/-- The code for a member or an item, under a name of its own. -/
def part (o : Options) (base member : String) (t : Tree) : String × Code :=
  (member, t.code o (o.nestedName base member))

@[simp] theorem part_fst (member : String) (t : Tree) : (part o base member t).1 = member := rfl

/-- The codes for members, as a list. -/
theorem memberCodes_eq_map (members : List (String × Tree)) :
    memberCodes o base members = members.map fun m => part o base m.1 m.2 := by
  induction members with
  | nil => rfl
  | cons m rest ih =>
    obtain ⟨name, t⟩ := m
    simp only [memberCodes, memberCode, ih, List.map_cons, part]

/-- The codes for items, which are numbered from `n`. -/
theorem itemCodes_eq_map (n : Nat) (items : List Tree) :
    itemCodes o base n items = (items.zipIdx n).map fun x => part o base (toString x.2) x.1 := by
  induction items generalizing n with
  | nil => rfl
  | cons t rest ih => simp only [itemCodes, ih, List.zipIdx_cons, List.map_cons, part]

theorem sizeOf_member {tag : TypeRef} {members : List (String × Tree)} {m : String × Tree}
    (h : m ∈ members) : sizeOf m.2 < sizeOf (Tree.object tag members) := by
  have hlt := List.sizeOf_lt_of_mem h
  obtain ⟨name, t⟩ := m
  simp only [Prod.mk.sizeOf_spec, Tree.object.sizeOf_spec] at hlt ⊢
  omega

theorem sizeOf_item {items : List Tree} {t : Tree} (h : t ∈ items) :
    sizeOf t < sizeOf (Tree.list items) := by
  have hlt := List.sizeOf_lt_of_mem h
  simp only [Tree.list.sizeOf_spec]
  omega

end Tree

/-- Values of a second function agree when they agree wherever those of the first do. -/
theorem map_eq_of_map_eq {α β γ : Type} {f : α → β} {g : α → γ} {xs ys : List α}
    (hf : xs.map f = ys.map f) (hg : ∀ x ∈ xs, ∀ y ∈ ys, f x = f y → g x = g y) :
    xs.map g = ys.map g := by
  induction xs generalizing ys with
  | nil => simp_all
  | cons x rest ih =>
    cases ys with
    | nil => simp at hf
    | cons y more =>
      obtain ⟨hxy, hrest⟩ := List.cons.inj hf
      rw [List.map_cons, List.map_cons, hg x List.mem_cons_self y List.mem_cons_self hxy]
      rw [ih hrest fun a ha b hb =>
        hg a (List.mem_cons_of_mem x ha) b (List.mem_cons_of_mem y hb)]

section

open Relation (ReflTransGen TransGen)

/-- One step inwards: to an item of a list, or to what is read from a property that is carried over. -/
inductive Heap.Leads (heap : Heap) : Value → Value → Prop
  | item {items x} : x ∈ items → Leads heap (.list items) x
  | read {o property reading x} : property ∈ Blueprint.carriedOf o.type →
      heap.get o property reading = .ok x → Leads heap (.object o) x

/-- An object on the way inwards that leads back to itself. -/
def Heap.Circles (heap : Heap) (v : Value) (o : Object) : Prop :=
  ReflTransGen heap.Leads v (.object o) ∧ TransGen heap.Leads (.object o) (.object o)

/-- A circle that a part leads to is one that the whole leads to. -/
theorem Heap.Circles.of_leads {heap : Heap} {v x : Value} {o : Object} (h : heap.Circles x o)
    (hx : heap.Leads v x) : heap.Circles v o :=
  ⟨h.1.head hx, h.2⟩

/-- The tree of a value, with members in the order in which they are carried over. -/
inductive Mirrors (heap : Heap) (types : Descriptor → Prop) (order : PropertyOrder) :
    Value → Tree → Prop
  | literal (l) : Mirrors heap types order (.literal l) (.literal l)
  | member {type name} : type.IsApart types →
      Mirrors heap types order (.member type name)
        (.constant (.named (Text.afterLastDot type.name.full)) name)
  | object {o} (pieces : List Piece) : types o.type →
      pieces.map Piece.member = (Blueprint.ofDescriptor o.type order).carried →
      (∀ p ∈ pieces, (heap.cell o).read o.type p.member = .ok p.value) →
      (∀ p ∈ pieces, Mirrors heap types order p.value p.tree) →
      Mirrors heap types order (.object o)
        (.object (.named (Text.afterLastDot o.type.name.full))
          (pieces.map fun p => (p.member, p.tree)))
  | list (items : List (Value × Tree)) : (∀ x ∈ items, Mirrors heap types order x.1 x.2) →
      Mirrors heap types order (.list (items.map (·.1))) (.list (items.map (·.2)))

/-- The order of a blueprint makes no difference to which properties are carried. -/
theorem Blueprint.mem_carried_iff {type : Descriptor} {order : PropertyOrder} {property : String} :
    property ∈ (ofDescriptor type order).carried ↔ property ∈ carriedOf type := by
  cases order <;> simp [ofDescriptor]

/-- Lists with the same image, item by item. -/
theorem exists_pairs {α β γ : Type} {f : α → γ} {g : β → γ} {xs : List α} {ys : List β}
    (h : xs.map f = ys.map g) :
    ∃ pairs : List (α × β), pairs.map (·.1) = xs ∧ pairs.map (·.2) = ys ∧
      ∀ x ∈ pairs, f x.1 = g x.2 := by
  induction xs generalizing ys with
  | nil =>
    obtain rfl := List.map_eq_nil_iff.mp h.symm
    exact ⟨[], rfl, rfl, by simp⟩
  | cons x rest ih =>
    cases ys with
    | nil => cases h
    | cons y more =>
      obtain ⟨hxy, hrest⟩ := List.cons.inj h
      obtain ⟨pairs, rfl, rfl, hpairs⟩ := ih hrest
      refine ⟨(x, y) :: pairs, rfl, rfl, fun z hz => ?_⟩
      rcases List.mem_cons.mp hz with rfl | hz
      · exact hxy
      · exact hpairs z hz

namespace Mirrors

variable {heap : Heap} {types : Descriptor → Prop} {order : PropertyOrder} {v v' x : Value}
  {t t' : Tree}

/-- A list is mirrored when its items are. -/
theorem of_items {α : Type} {value : α → Value} {tree : α → Tree} (xs : List α)
    (h : ∀ x ∈ xs, Mirrors heap types order (value x) (tree x)) :
    Mirrors heap types order (.list (xs.map value)) (.list (xs.map tree)) := by
  have hall : Mirrors heap types order _ _ := .list (xs.map fun x => (value x, tree x)) fun y hy => by
    obtain ⟨x, hx, rfl⟩ := List.mem_map.mp hy
    exact h x hx
  rw [List.map_map, List.map_map] at hall
  exact hall

/-- An object whose members are given, and with them what the properties hold. -/
theorem of_members {o : Object} (value : String → Value) (members : List (String × Tree))
    (htype : types o.type)
    (hcarried : members.map (·.1) = (Blueprint.ofDescriptor o.type order).carried)
    (hread : ∀ m ∈ members, (heap.cell o).read o.type m.1 = .ok (value m.1))
    (htrees : ∀ m ∈ members, Mirrors heap types order (value m.1) m.2) :
    Mirrors heap types order (.object o)
      (.object (.named (Text.afterLastDot o.type.name.full)) members) := by
  have hall : Mirrors heap types order (.object o) _ :=
    .object (members.map fun m => ⟨m.1, value m.1, m.2⟩) htype (by rwa [List.map_map])
      (fun p hp => by
        obtain ⟨m, hm, rfl⟩ := List.mem_map.mp hp
        exact hread m hm)
      fun p hp => by
        obtain ⟨m, hm, rfl⟩ := List.mem_map.mp hp
        exact htrees m hm
  rw [List.map_map] at hall
  change Mirrors heap types order _ (.object _ (members.map id)) at hall
  rwa [List.map_id] at hall

/-- The copies of a value have the same tree. -/
theorem of_bare (h : Mirrors heap types order v t) (hbare : v'.bare = v.bare) :
    Mirrors heap types order v' t := by
  induction h generalizing v' with
  | literal l =>
    cases v' <;> cases hbare
    exact .literal l
  | member ht =>
    cases v' <;> cases hbare
    exact .member ht
  | @object o pieces ht hcarried hread htrees _ =>
    cases v' with
    | object o' =>
      obtain ⟨hcell, htype⟩ := Value.object_of_bare hbare
      have hsame : heap.cell o' = heap.cell o := by rw [Heap.cell, Heap.cell, hcell]
      rw [← htype] at ht hcarried hread ⊢
      rw [← hsame] at hread
      exact .object pieces ht hcarried hread htrees
    | _ => cases hbare
  | list items hitems ih =>
    cases v' with
    | list others =>
      simp only [Value.bare, Value.bareAll_eq_map, Value.list.injEq, List.map_map] at hbare
      obtain ⟨pairs, rfl, hsnd, hpairs⟩ := exists_pairs hbare
      rw [← hsnd, List.map_map]
      refine of_items pairs fun x hx => ?_
      have hmem : x.2 ∈ items := hsnd ▸ List.mem_map_of_mem hx
      exact ih x.2 hmem (hpairs x hx)
    | _ => cases hbare

/-- A value has one tree at most, by induction on the first one. -/
theorem unique (h : Mirrors heap types order v t) (h' : Mirrors heap types order v t') :
    t = t' := by
  induction h generalizing t' with
  | literal l =>
    cases h'
    rfl
  | member ht =>
    cases h'
    rfl
  | @object o pieces ht hcarried hread htrees ih =>
    cases h' with
    | object pieces' ht' hcarried' hread' htrees' =>
      have hmembers : pieces.map (fun p => (p.member, p.tree)) =
          pieces'.map fun p => (p.member, p.tree) := by
        refine map_eq_of_map_eq (hcarried.trans hcarried'.symm) fun p hp q hq hpq => ?_
        have hvalue : p.value = q.value := by
          have hp' := hread p hp
          rw [hpq, hread' q hq] at hp'
          exact (Except.ok.inj hp').symm
        rw [ih p hp (hvalue ▸ htrees' q hq), hpq]
      rw [hmembers]
  | list items hitems ih =>
    generalize hv : Value.list (items.map (·.1)) = v at h'
    cases h' with
    | list items' hitems' =>
      rw [map_eq_of_map_eq (Value.list.inj hv) fun x hx y hy hxy =>
        ih x hx (hxy ▸ hitems' y hy)]
    | _ => cases hv

/-- Every step inwards leads to a smaller tree. -/
theorem leads (h : Mirrors heap types order v t) (hx : heap.Leads v x) :
    ∃ u, Mirrors heap types order x u ∧ sizeOf u < sizeOf t := by
  cases hx with
  | @item items _ hmem =>
    generalize hv : Value.list items = v at h
    cases h with
    | list pairs hpairs =>
      cases hv
      obtain ⟨y, hy, rfl⟩ := List.mem_map.mp hmem
      exact ⟨y.2, hpairs y hy, Tree.sizeOf_item (List.mem_map_of_mem hy)⟩
    | _ => cases hv
  | read hproperty hget =>
    cases h with
    | object pieces ht hcarried hread htrees =>
      have hmem : _ ∈ pieces.map Piece.member := hcarried ▸ Blueprint.mem_carried_iff.mpr hproperty
      obtain ⟨p, hp, rfl⟩ := List.mem_map.mp hmem
      obtain ⟨y, hy, hbare⟩ := Heap.read_of_get hget
      obtain rfl := Except.ok.inj ((hread p hp).symm.trans hy)
      refine ⟨p.tree, (htrees p hp).of_bare hbare, ?_⟩
      exact Tree.sizeOf_member (List.mem_map_of_mem (f := fun p => (p.member, p.tree)) hp)

/-- Whatever a value with a tree leads to has a smaller tree. -/
theorem leads_trans (h : Mirrors heap types order v t) (hx : TransGen heap.Leads v x) :
    ∃ u, Mirrors heap types order x u ∧ sizeOf u < sizeOf t := by
  induction hx with
  | single hstep => exact h.leads hstep
  | tail _ hstep ih =>
    obtain ⟨u, hu, hlt⟩ := ih
    obtain ⟨u', hu', hlt'⟩ := hu.leads hstep
    exact ⟨u', hu', Nat.lt_trans hlt' hlt⟩

/-- No way leads back to the value, or to another copy of it. -/
theorem not_back (h : Mirrors heap types order v t) (hx : TransGen heap.Leads v x) :
    x.bare ≠ v.bare := by
  intro hbare
  obtain ⟨u, hu, hlt⟩ := h.leads_trans hx
  obtain rfl := (h.of_bare hbare).unique hu
  exact Nat.lt_irrefl _ hlt

/-- So no way from it comes back to an object on the way. -/
theorem not_circles (h : Mirrors heap types order v t) (o : Object) : ¬ heap.Circles v o := by
  rintro ⟨hreach, hback⟩
  obtain rfl | hreach := Relation.reflTransGen_iff_eq_or_transGen.mp hreach
  · exact h.not_back hback rfl
  · obtain ⟨u, hu, -⟩ := h.leads_trans hreach
    exact hu.not_back hback rfl

end Mirrors

end

end ResourceCode

import ResourceCode.Proofs.Mirroring.Mirrors
import Mathlib.Data.List.Perm.Basic
import Mathlib.Logic.Function.Basic

/-!
The straight-line meaning of generated code. A construction allocates a fresh object that bears the type as its tag; a
declaration binds a local; an assignment stores a member; `Add` appends an item. Other forms have no meaning here.

A datum holds a tree when the objects behind the datum have exactly the tags, members and items that the tree says. No
object is met twice on the way: the addresses of a held tree are distinct.
-/

namespace ResourceCode

section

/-- What an expression evaluates to. -/
inductive Store.Datum where
  | literal (l : Literal)
  | constant (type : TypeRef) (name : String)
  | ref (address : Nat)

open Store (Datum)

structure Instance where
  tag : TypeRef
  members : String → Option Datum := fun _ => none
  items : List Datum := []

namespace Instance

def setMember (i : Instance) (member : String) (d : Datum) : Instance :=
  { i with members := Function.update i.members member (some d) }

def addItem (i : Instance) (d : Datum) : Instance := { i with items := i.items ++ [d] }

end Instance

/-- Addresses from `next` on are free. -/
structure Store where
  locals : String → Option Datum
  objects : Nat → Instance
  next : Nat

namespace Store

def bind (s : Store) (x : String) (d : Datum) : Store :=
  { s with locals := Function.update s.locals x (some d) }

def allocate (s : Store) (t : TypeRef) : Store :=
  { s with objects := Function.update s.objects s.next { tag := t }, next := s.next + 1 }

def change (s : Store) (a : Nat) (f : Instance → Instance) : Store :=
  { s with objects := Function.update s.objects a (f (s.objects a)) }

/-- With a fresh object that a local refers to. -/
def construct (s : Store) (x : String) (t : TypeRef) : Store := (s.allocate t).bind x (.ref s.next)

/-- The object that a local refers to. -/
def object? (s : Store) (x : String) : Option Nat :=
  match s.locals x with
  | some (.ref a) => some a
  | _ => none

/-- The value of an expression, and the store after its evaluation. -/
def eval (s : Store) : Expr → Option (Datum × Store)
  | .literal l => some (.literal l, s)
  | .field (.type t) name => some (.constant t name, s)
  | .var x => (s.locals x).map fun d => (d, s)
  | .new t [] => some (.ref s.next, s.allocate t)
  | _ => none

def exec (s : Store) : Statement → Option Store
  | .declare x _ (some e) => (s.eval e).map fun (d, s) => s.bind x d
  | .assign (.field (.var x) member) e =>
    (s.object? x).bind fun a => (s.eval e).map fun (d, s) => s.change a (·.setMember member d)
  | .expr (.call (.var x) "Add" [e]) =>
    (s.object? x).bind fun a => (s.eval e).map fun (d, s) => s.change a (·.addItem d)
  | _ => none

def run (s : Store) : List Statement → Option Store
  | [] => some s
  | statement :: rest => (s.exec statement).bind (·.run rest)

/-- Statements run one after another. -/
theorem run_append (s : Store) (before after : List Statement) :
    s.run (before ++ after) = (s.run before).bind (·.run after) := by
  induction before generalizing s with
  | nil => rfl
  | cons statement rest ih =>
    simp only [List.cons_append, run, Option.bind_assoc, ih]

theorem run_append_of {s s' : Store} {before : List Statement} (h : s.run before = some s')
    (after : List Statement) : s.run (before ++ after) = s'.run after := by
  rw [run_append, h, Option.bind_some]

@[simp] theorem locals_change (s : Store) (a : Nat) (f : Instance → Instance) :
    (s.change a f).locals = s.locals := rfl

@[simp] theorem next_change (s : Store) (a : Nat) (f : Instance → Instance) :
    (s.change a f).next = s.next := rfl

@[simp] theorem objects_change_same (s : Store) (a : Nat) (f : Instance → Instance) :
    (s.change a f).objects a = f (s.objects a) := by
  simp [change]

theorem objects_change_of_ne (s : Store) {a b : Nat} (h : b ≠ a) (f : Instance → Instance) :
    (s.change a f).objects b = s.objects b := by
  simp [change, h]

@[simp] theorem locals_bind_same (s : Store) (x : String) (d : Datum) :
    (s.bind x d).locals x = some d := by
  simp [bind]

theorem locals_bind_of_ne (s : Store) {x y : String} (h : y ≠ x) (d : Datum) :
    (s.bind x d).locals y = s.locals y := by
  simp [bind, h]

@[simp] theorem objects_allocate_same (s : Store) (t : TypeRef) :
    (s.allocate t).objects s.next = { tag := t } := by
  simp [allocate]

theorem objects_allocate_of_ne (s : Store) {a : Nat} (h : a ≠ s.next) (t : TypeRef) :
    (s.allocate t).objects a = s.objects a := by
  simp [allocate, h]

theorem exec_construct (s : Store) (x : String) (t : TypeRef) :
    s.exec (.declare x t (some (.new t []))) = some (s.construct x t) := rfl

@[simp] theorem next_construct (s : Store) (x : String) (t : TypeRef) :
    (s.construct x t).next = s.next + 1 := rfl

@[simp] theorem locals_construct_same (s : Store) (x : String) (t : TypeRef) :
    (s.construct x t).locals x = some (.ref s.next) :=
  (s.allocate t).locals_bind_same x _

theorem locals_construct_of_ne (s : Store) {x y : String} (h : y ≠ x) (t : TypeRef) :
    (s.construct x t).locals y = s.locals y :=
  (s.allocate t).locals_bind_of_ne h _

@[simp] theorem objects_construct_same (s : Store) (x : String) (t : TypeRef) :
    (s.construct x t).objects s.next = { tag := t } :=
  s.objects_allocate_same t

theorem objects_construct_of_ne (s : Store) {a : Nat} (h : a ≠ s.next) (x : String) (t : TypeRef) :
    (s.construct x t).objects a = s.objects a :=
  s.objects_allocate_of_ne h t

/-- From one store to a later one: locals of those names and objects below the limit are as they were. -/
structure Keeps (names : String → Prop) (limit : Nat) (s s' : Store) : Prop where
  next : s.next ≤ s'.next
  locals : ∀ x, names x → s'.locals x = s.locals x
  objects : ∀ a < limit, s'.objects a = s.objects a

variable {names more : String → Prop} {limit less : Nat} {s s' s'' : Store}

theorem Keeps.refl (names : String → Prop) (limit : Nat) (s : Store) : Keeps names limit s s :=
  ⟨Nat.le_refl _, fun _ _ => rfl, fun _ _ => rfl⟩

/-- What is kept along one run and along the next is kept along both. -/
theorem Keeps.trans (h : Keeps names limit s s') (h' : Keeps names limit s' s'') :
    Keeps names limit s s'' := by
  constructor
  · exact Nat.le_trans h.next h'.next
  · intro x hx
    rw [h'.locals x hx, h.locals x hx]
  · intro a ha
    rw [h'.objects a ha, h.objects a ha]

theorem Keeps.mono (h : Keeps names limit s s') (hn : ∀ x, more x → names x) (hl : less ≤ limit) :
    Keeps more less s s' :=
  ⟨h.next, fun x hx => h.locals x (hn x hx), fun a ha => h.objects a (by omega)⟩

theorem keeps_allocate (names : String → Prop) (s : Store) (t : TypeRef) :
    Keeps names s.next s (s.allocate t) := by
  constructor
  · exact Nat.le_succ _
  · intro x _
    rfl
  · intro a ha
    exact s.objects_allocate_of_ne (by omega) t

/-- A construction leaves older objects alone, and all locals but its own. -/
theorem keeps_construct {x : String} (hx : ¬ names x) (s : Store) (t : TypeRef) :
    Keeps names s.next s (s.construct x t) := by
  constructor
  · exact Nat.le_succ _
  · intro y hy
    have hne : y ≠ x := by
      rintro rfl
      exact hx hy
    exact s.locals_construct_of_ne hne t
  · intro a ha
    exact s.objects_construct_of_ne (by omega) x t

/-- Changing a new object leaves older ones alone. -/
theorem keeps_change (names : String → Prop) {a : Nat} (ha : limit ≤ a) (s : Store)
    (f : Instance → Instance) : Keeps names limit s (s.change a f) := by
  constructor
  · exact Nat.le_refl _
  · intro x _
    rfl
  · intro b hb
    exact s.objects_change_of_ne (by omega) f

end Store

end

section

open Store (Datum)

/-- A datum that is held by a member or as an item, with its tree and the addresses behind it. -/
structure Held where
  member : String
  datum : Datum
  tree : Tree
  addresses : List Nat

/-- The members that an object has for what it holds. -/
def Held.members (held : List Held) (member : String) : Option Datum :=
  (held.map fun x => (x.member, x.datum)).lookup member

inductive Holds (objects : Nat → Instance) : Datum → Tree → List Nat → Prop
  | literal (l) : Holds objects (.literal l) (.literal l) []
  | constant (type name) : Holds objects (.constant type name) (.constant type name) []
  | object {a tag} (held : List Held) : objects a = { tag, members := Held.members held } →
      (∀ x ∈ held, Holds objects x.datum x.tree x.addresses) →
      Holds objects (.ref a) (.object tag (held.map fun x => (x.member, x.tree)))
        (a :: held.flatMap Held.addresses)
  | list {a} (held : List Held) :
      objects a = { tag := .objectList, items := held.map Held.datum } →
      (∀ x ∈ held, Holds objects x.datum x.tree x.addresses) →
      Holds objects (.ref a) (.list (held.map Held.tree)) (a :: held.flatMap Held.addresses)

theorem Held.mem_addresses {held : List Held} {x : Held} {a : Nat} (hx : x ∈ held)
    (ha : a ∈ x.addresses) : a ∈ held.flatMap Held.addresses :=
  List.mem_flatMap.mpr ⟨x, hx, ha⟩

/-- What is held depends on the objects at its addresses only. -/
theorem Holds.congr {objects objects' : Nat → Instance} {d : Datum} {t : Tree} {as : List Nat}
    (h : Holds objects d t as) (hsame : ∀ a ∈ as, objects' a = objects a) :
    Holds objects' d t as := by
  induction h with
  | literal l => exact .literal l
  | constant type name => exact .constant type name
  | object held ha _ ih =>
    refine .object held ((hsame _ List.mem_cons_self).trans ha) fun x hx => ih x hx fun b hb => ?_
    exact hsame b (List.mem_cons_of_mem _ (Held.mem_addresses hx hb))
  | list held ha _ ih =>
    refine .list held ((hsame _ List.mem_cons_self).trans ha) fun x hx => ih x hx fun b hb => ?_
    exact hsame b (List.mem_cons_of_mem _ (Held.mem_addresses hx hb))

theorem Held.members_cons (x : Held) (rest : List Held) (member : String) :
    Held.members (x :: rest) member =
      if member = x.member then some x.datum else Held.members rest member := by
  unfold Held.members
  rw [List.map_cons, List.lookup_cons]
  by_cases h : member = x.member
  · simp [h]
  · have hkey : (member == x.member) = false := beq_false_of_ne h
    simp [h, hkey]

/-- Members are found whatever their order, when their names are distinct. -/
theorem Held.members_perm {held held' : List Held} (hp : held.Perm held')
    (hn : (held.map Held.member).Nodup) : Held.members held = Held.members held' := by
  induction hp with
  | nil => rfl
  | cons x _ ih =>
    funext member
    rw [members_cons, members_cons, ih (List.nodup_cons.mp hn).2]
  | swap x y rest =>
    funext member
    have hne : y.member ≠ x.member := by
      intro h
      simp [h] at hn
    simp only [members_cons]
    by_cases hx : member = x.member
    · have hy : member ≠ y.member := fun h => hne (h.symm.trans hx)
      rw [if_neg hy, if_pos hx, if_pos hx]
    · simp only [if_neg hx]
  | trans hp _ ih ih' =>
    rw [ih hn]
    exact ih' ((hp.map _).nodup_iff.mp hn)

/-- What is reordered after a map can be reordered before it. -/
theorem exists_perm_of_map_perm {α β : Type} {f : α → β} {xs : List α} {ys : List β}
    (h : (xs.map f).Perm ys) : ∃ xs' : List α, xs'.Perm xs ∧ xs'.map f = ys := by
  have hcomp := congrFun (congrFun (List.eq_map_comp_perm f) ys) xs
  obtain ⟨xs', hmap, hperm⟩ := hcomp.mpr h.symm
  exact ⟨xs', hperm, hmap.symm⟩

/-- One more member. -/
theorem Held.update_members {held : List Held} {x : Held}
    (hn : ((held ++ [x]).map Held.member).Nodup) :
    Function.update (Held.members held) x.member (some x.datum) = Held.members (held ++ [x]) := by
  rw [members_perm (List.perm_append_singleton x held) hn]
  funext member
  rw [members_cons, Function.update_apply]

/-- The same object under another order of its members. -/
theorem Holds.object_perm {objects : Nat → Instance} {a : Nat} {tag : TypeRef}
    {held : List Held} {members : List (String × Tree)}
    (ha : objects a = { tag, members := Held.members held })
    (hheld : ∀ x ∈ held, Holds objects x.datum x.tree x.addresses)
    (hn : (held.map Held.member).Nodup)
    (hp : (held.map fun x => (x.member, x.tree)).Perm members) :
    ∃ as, as.Perm (a :: held.flatMap Held.addresses) ∧
      Holds objects (.ref a) (.object tag members) as := by
  obtain ⟨held', hperm, rfl⟩ := exists_perm_of_map_perm hp
  rw [Held.members_perm hperm.symm hn] at ha
  refine ⟨_, ?_, .object held' ha fun x hx => hheld x (hperm.mem_iff.mp hx)⟩
  exact (hperm.flatMap_right _).cons a

end

end ResourceCode

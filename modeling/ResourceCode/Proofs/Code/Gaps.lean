import ResourceCode.Code
import Mathlib.Data.List.Basic

/-!
The gaps of generated code. A name other than that of a type stands in a gap of an expression, a statement or a method,
and each of them is the gap filled with the name. The names of types are counted in at the end.
-/

namespace ResourceCode

/-- What a name stands for. -/
inductive NameRole where
  | var
  | declared
  | parameter
  | member
  | called
  | group
  | method

/-- Locals and parameters are the names that belong to one method. -/
def NameRole.isLocal : NameRole → Bool
  | var | declared | parameter => true
  | member | called | group | method => false

namespace Expr

mutual

/-- The names in an expression with what they stand for, those of types apart. -/
def names : Expr → List (NameRole × String)
  | literal _ | this | type _ | typeOf _ => []
  | var name => [(.var, name)]
  | methodGroup name => [(.group, name)]
  | field target name => target.names ++ [(.member, name)]
  | new _ args => namesAll args
  | call target method args => target.names ++ (.called, method) :: namesAll args
  | invoke method args => (.called, method) :: namesAll args

def namesAll : List Expr → List (NameRole × String)
  | [] => []
  | e :: rest => e.names ++ namesAll rest

end

theorem namesAll_eq_flatMap (es : List Expr) : namesAll es = es.flatMap names := by
  induction es with
  | nil => rfl
  | cons e rest ih => rw [namesAll, ih, List.flatMap_cons]

end Expr

/-- An expression in which one name is left out. -/
inductive Expr.Gap where
  | var
  | member (target : Expr)
  | called (target : Expr) (args : List Expr)
  | invoked (args : List Expr)
  | group
  | inField (target : Gap) (name : String)
  | inNew (t : TypeRef) (before : List Expr) (arg : Gap) (after : List Expr)
  | inTarget (target : Gap) (method : String) (args : List Expr)
  | inCall (target : Expr) (method : String) (before : List Expr) (arg : Gap) (after : List Expr)
  | inInvoke (method : String) (before : List Expr) (arg : Gap) (after : List Expr)

namespace Expr.Gap

def fill : Gap → String → Expr
  | var, n => .var n
  | member target, n => .field target n
  | called target args, n => .call target n args
  | invoked args, n => .invoke n args
  | group, n => .methodGroup n
  | inField target name, n => .field (target.fill n) name
  | inNew t before arg after, n => .new t (before ++ arg.fill n :: after)
  | inTarget target method args, n => .call (target.fill n) method args
  | inCall target method before arg after, n => .call target method (before ++ arg.fill n :: after)
  | inInvoke method before arg after, n => .invoke method (before ++ arg.fill n :: after)

def role : Gap → NameRole
  | var => .var
  | member _ => .member
  | called _ _ | invoked _ => .called
  | group => .group
  | inField target _ | inTarget target _ _ => target.role
  | inNew _ _ arg _ | inCall _ _ _ arg _ | inInvoke _ _ arg _ => arg.role

/-- The name that a gap is filled with is one of the names. -/
theorem mem_names (g : Gap) (name : String) : (g.role, name) ∈ (g.fill name).names := by
  induction g with
  | var | member | called | invoked | group => simp [fill, role, names]
  | inField _ _ ih | inNew _ _ _ _ ih | inTarget _ _ _ ih | inCall _ _ _ _ _ ih | inInvoke _ _ _ _ ih =>
    simp [fill, role, names, namesAll_eq_flatMap, ih]

end Expr.Gap

namespace Expr

variable {role : NameRole} {name : String}

mutual

/-- Every name of an expression fills a gap: taken out of it, the gap remains, and the name put back gives the
expression. -/
theorem exists_gap : ∀ (e : Expr), (role, name) ∈ e.names → ∃ g : Gap, g.role = role ∧ g.fill name = e
  | literal _, h | this, h | type _, h | typeOf _, h => nomatch h
  | var _, h => by
    cases List.mem_singleton.mp h
    exact ⟨.var, rfl, rfl⟩
  | methodGroup _, h => by
    cases List.mem_singleton.mp h
    exact ⟨.group, rfl, rfl⟩
  | field target member, h => by
    obtain h | h := List.mem_append.mp h
    · obtain ⟨g, rfl, rfl⟩ := exists_gap target h
      exact ⟨.inField g member, rfl, rfl⟩
    · cases List.mem_singleton.mp h
      exact ⟨.member target, rfl, rfl⟩
  | new t args, h => by
    obtain ⟨before, g, after, rfl, rfl⟩ := exists_gap_all args h
    exact ⟨.inNew t before g after, rfl, rfl⟩
  | call target method args, h => by
    obtain h | h := List.mem_append.mp h
    · obtain ⟨g, rfl, rfl⟩ := exists_gap target h
      exact ⟨.inTarget g method args, rfl, rfl⟩
    · obtain h | h := List.mem_cons.mp h
      · cases h
        exact ⟨.called target args, rfl, rfl⟩
      · obtain ⟨before, g, after, rfl, rfl⟩ := exists_gap_all args h
        exact ⟨.inCall target method before g after, rfl, rfl⟩
  | invoke method args, h => by
    obtain h | h := List.mem_cons.mp h
    · cases h
      exact ⟨.invoked args, rfl, rfl⟩
    · obtain ⟨before, g, after, rfl, rfl⟩ := exists_gap_all args h
      exact ⟨.inInvoke method before g after, rfl, rfl⟩

/-- So does every name in a list of arguments, with the others left around it. -/
theorem exists_gap_all : ∀ (es : List Expr), (role, name) ∈ namesAll es →
    ∃ before, ∃ g : Gap, ∃ after, g.role = role ∧ before ++ g.fill name :: after = es
  | [], h => nomatch h
  | e :: rest, h => by
    obtain h | h := List.mem_append.mp h
    · obtain ⟨g, rfl, rfl⟩ := exists_gap e h
      exact ⟨[], g, rest, rfl, rfl⟩
    · obtain ⟨before, g, after, rfl, rfl⟩ := exists_gap_all rest h
      exact ⟨e :: before, g, after, rfl, rfl⟩

end

/-- The names of an expression are those that fill its gaps. -/
theorem mem_names_iff {e : Expr} : (role, name) ∈ e.names ↔ ∃ g : Gap, g.role = role ∧ g.fill name = e := by
  constructor
  · exact exists_gap e
  · rintro ⟨g, rfl, rfl⟩
    exact g.mem_names name

end Expr

namespace Statement

def names : Statement → List (NameRole × String)
  | declare name _ value => (.declared, name) :: value.elim [] Expr.names
  | assign target value => target.names ++ value.names
  | expr e => e.names
  | ret value => value.elim [] Expr.names

end Statement


/-- A statement in which one name is left out. -/
inductive Statement.Gap where
  | declared (t : TypeRef) (value : Option Expr)
  | inDeclared (name : String) (t : TypeRef) (value : Expr.Gap)
  | inTarget (target : Expr.Gap) (value : Expr)
  | inValue (target : Expr) (value : Expr.Gap)
  | inExpr (e : Expr.Gap)
  | inReturn (value : Expr.Gap)

namespace Statement.Gap

def fill : Gap → String → Statement
  | declared t value, n => .declare n t value
  | inDeclared name t value, n => .declare name t (some (value.fill n))
  | inTarget target value, n => .assign (target.fill n) value
  | inValue target value, n => .assign target (value.fill n)
  | inExpr e, n => .expr (e.fill n)
  | inReturn value, n => .ret (some (value.fill n))

def role : Gap → NameRole
  | declared _ _ => .declared
  | inDeclared _ _ e | inTarget e _ | inValue _ e | inExpr e | inReturn e => e.role

end Statement.Gap

/-- The names of a statement are those that fill its gaps. -/
theorem Statement.mem_names_iff {s : Statement} {role : NameRole} {name : String} :
    (role, name) ∈ s.names ↔ ∃ g : Gap, g.role = role ∧ g.fill name = s := by
  constructor
  · intro h
    cases s with
    | declare other t value =>
      obtain h | h := List.mem_cons.mp h
      · cases h
        exact ⟨.declared t value, rfl, rfl⟩
      · cases value with
        | none => cases h
        | some value =>
          obtain ⟨g, rfl, rfl⟩ := Expr.mem_names_iff.mp h
          exact ⟨.inDeclared other t g, rfl, rfl⟩
    | assign target value =>
      obtain h | h := List.mem_append.mp h
      · obtain ⟨g, rfl, rfl⟩ := Expr.mem_names_iff.mp h
        exact ⟨.inTarget g value, rfl, rfl⟩
      · obtain ⟨g, rfl, rfl⟩ := Expr.mem_names_iff.mp h
        exact ⟨.inValue target g, rfl, rfl⟩
    | expr e =>
      obtain ⟨g, rfl, rfl⟩ := Expr.mem_names_iff.mp h
      exact ⟨.inExpr g, rfl, rfl⟩
    | ret value =>
      cases value with
      | none => cases h
      | some value =>
        obtain ⟨g, rfl, rfl⟩ := Expr.mem_names_iff.mp h
        exact ⟨.inReturn g, rfl, rfl⟩
  · rintro ⟨g, rfl, rfl⟩
    cases g with
    | declared => simp [Gap.fill, Gap.role, names]
    | inDeclared _ _ g | inTarget g _ | inValue _ g | inExpr g | inReturn g =>
      simp [Gap.fill, Gap.role, names, g.mem_names name]

def Method.names (m : Method) : List (NameRole × String) :=
  (.method, m.name) :: m.parameters.map (fun p => (.parameter, p.name)) ++ m.body.flatMap Statement.names


/-- A method in which one name is left out. -/
inductive Method.Gap where
  | method (m : Method)
  | parameter (m : Method) (before : List Parameter) (t : TypeRef) (after : List Parameter)
  | inBody (m : Method) (before : List Statement) (s : Statement.Gap) (after : List Statement)

namespace Method.Gap

def fill : Gap → String → Method
  | method m, n => { m with name := n }
  | parameter m before t after, n => { m with parameters := before ++ ⟨n, t⟩ :: after }
  | inBody m before s after, n => { m with body := before ++ s.fill n :: after }

def role : Gap → NameRole
  | method _ => .method
  | parameter .. => .parameter
  | inBody _ _ s _ => s.role

end Method.Gap

/-- The names of a method are those that fill its gaps. -/
theorem Method.mem_names_iff {m : Method} {role : NameRole} {name : String} :
    (role, name) ∈ m.names ↔ ∃ g : Gap, g.role = role ∧ g.fill name = m := by
  constructor
  · intro h
    simp only [names, List.cons_append, List.mem_cons, List.mem_append, List.mem_map, List.mem_flatMap] at h
    obtain h | ⟨p, hp, h⟩ | ⟨s, hs, h⟩ := h
    · cases h
      exact ⟨.method m, rfl, rfl⟩
    · cases h
      obtain ⟨before, after, hparameters⟩ := List.append_of_mem hp
      exact ⟨.parameter m before p.type after, rfl, by simp [Gap.fill, ← hparameters]⟩
    · obtain ⟨g, rfl, rfl⟩ := Statement.mem_names_iff.mp h
      obtain ⟨before, after, hbody⟩ := List.append_of_mem hs
      exact ⟨.inBody m before g after, rfl, by simp [Gap.fill, ← hbody]⟩
  · rintro ⟨g, rfl, rfl⟩
    cases g with
    | method | parameter => simp [Gap.fill, Gap.role, names]
    | inBody _ _ s _ =>
      have hs := Statement.mem_names_iff.mpr ⟨s, rfl, Eq.refl (s.fill name)⟩
      simp [Gap.fill, Gap.role, names, hs]

namespace TypeRef

mutual

def vocabulary : TypeRef → List String
  | primitive _ | object | void => []
  | named name => [name]
  | generic name args => name :: vocabularyAll args
  | array element => element.vocabulary

def vocabularyAll : List TypeRef → List String
  | [] => []
  | t :: rest => t.vocabulary ++ vocabularyAll rest

end

end TypeRef

namespace Expr

mutual

/-- The names of variables, members, called methods, method groups and types. -/
def vocabulary : Expr → List String
  | literal _ | this => []
  | var name | methodGroup name => [name]
  | type t | typeOf t => t.vocabulary
  | field target name => target.vocabulary ++ [name]
  | new t args => t.vocabulary ++ vocabularyAll args
  | call target method args => target.vocabulary ++ [method] ++ vocabularyAll args
  | invoke method args => method :: vocabularyAll args

def vocabularyAll : List Expr → List String
  | [] => []
  | e :: rest => e.vocabulary ++ vocabularyAll rest

end

end Expr

/-- The names in an expression, and the local that a declaration declares. -/
def Statement.vocabulary : Statement → List String
  | declare name t none => t.vocabulary ++ [name]
  | declare name t (some value) => t.vocabulary ++ [name] ++ value.vocabulary
  | assign target value => target.vocabulary ++ value.vocabulary
  | expr e => e.vocabulary
  | ret none => []
  | ret (some value) => value.vocabulary

def Parameter.vocabulary (p : Parameter) : List String := p.type.vocabulary ++ [p.name]

/-- The names in the header of a method. -/
def Method.headerVocabulary (m : Method) : List String :=
  m.returns.vocabulary ++ [m.name] ++ m.parameters.flatMap Parameter.vocabulary

def Method.vocabulary (m : Method) : List String :=
  m.headerVocabulary ++ m.body.flatMap Statement.vocabulary

/-- The names in a class, those of its using lines and its namespace apart. -/
def Class.vocabulary (c : Class) : List String :=
  [c.name] ++ c.base.toList ++ c.methods.flatMap Method.vocabulary

end ResourceCode

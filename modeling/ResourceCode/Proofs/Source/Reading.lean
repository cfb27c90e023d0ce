import ResourceCode.Proofs.Source.Wording

/-!
Source text of expressions is unambiguous. The phrase that a text stands for is read from left to right, and gives the
expression again, but for what is written in the same way: a variable, a type and a method with the same name, and
numbers without digits and the members that stand for them.
-/

namespace ResourceCode

namespace Expr

/-- A real number, or the member that stands for it. -/
def real (p : Primitive) (d : Number.Datum) (l : Literal) : Expr :=
  match Source.constant? d with
  | some name => .field (.type (.primitive p)) name
  | none => .literal l

def canonicalLiteral : Literal → Expr
  | .single v => real .single v.datum (.single v)
  | .double v => real .double v.datum (.double v)
  | l => .literal l

mutual

/-- One expression for all that are written in the same way: a name that is not escaped is taken for the name of a
type, and a number without digits for a member. -/
def canonical : Expr → Expr
  | literal l => canonicalLiteral l
  | var name => if Source.isReserved name then var name else type (.named name)
  | this => this
  | type t => type t
  | field target name => field target.canonical name
  | new t args => new t (canonicalAll args)
  | call target method args => call target.canonical method (canonicalAll args)
  | invoke method args => invoke method (canonicalAll args)
  | typeOf t => typeOf t
  | methodGroup name => type (.named name)

def canonicalAll : List Expr → List Expr
  | [] => []
  | e :: rest => e.canonical :: canonicalAll rest

end

end Expr

namespace Source

/-- What the beginning of a phrase has turned out to be. -/
inductive Reading where
  | type (t : TypeRef)
  | expr (e : Expr)
  | typeOf
  | new
  /-- A type to be constructed. -/
  | fresh (t : TypeRef)

namespace Reading

def toExpr : Reading → Expr
  | type t => .type t
  | expr e => e
  | _ => .null

def toType : Reading → TypeRef
  | type t => t
  | _ => .void

/-- An expression; types are among them. -/
def ofExpr : Expr → Reading
  | .type t => type t
  | e => expr e

/-- Reading an expression and taking it as one changes nothing. -/
@[simp] theorem toExpr_ofExpr (e : Expr) : (ofExpr e).toExpr = e := by
  cases e <;> rfl

def keywords : List (String × Reading) :=
  [("null", expr .null), ("true", expr (.literal (.bool true))),
    ("false", expr (.literal (.bool false))), ("this", expr .this), ("typeof", typeOf), ("new", new),
    ("object", type .object), ("void", type .void)]
    ++ Primitive.all.map fun p => (primitive p, type (.primitive p))

/-- All other words are names. -/
def ofWord (name : String) : Reading := (keywords.lookup name).getD (type (.named name))

theorem ofWord_name {name : String} (h : isReserved name = false) :
    ofWord name = type (.named name) := by
  have hkeywords : ∀ k ∈ keywords, isReserved k.1 = true := by decide +kernel
  have hnone : keywords.lookup name = none := by
    apply List.lookup_eq_none_iff.mpr
    intro k hk
    apply bne_iff_ne.mpr
    rintro rfl
    rw [hkeywords k hk] at h
    cases h
  rw [ofWord, hnone, Option.getD_none]

theorem ofWord_primitive (p : Primitive) : ofWord (primitive p) = type (.primitive p) := by
  cases p <;> rfl

/-- Goes on with another word. -/
def word (name : String) : Reading → Reading
  | new => fresh (ofWord name).toType
  | x => x

def member (name : String) (x : Reading) : Reading := expr (.field x.toExpr name)

def rank : Reading → Reading
  | type t => type (.array t)
  | fresh t => fresh (.array t)
  | x => x

/-- Goes on with a list in brackets. What has been a member becomes the method of a call. -/
def list (items : List Reading) : Bracket → Reading → Reading
  | .angle, type (.named name) => type (.generic name (items.map toType))
  | .angle, fresh (.named name) => fresh (.generic name (items.map toType))
  | .round, type (.named name) => expr (.invoke name (items.map toExpr))
  | .round, fresh t => expr (.new t (items.map toExpr))
  | .round, expr (.field target name) => expr (.call target name (items.map toExpr))
  | .round, typeOf => expr (.typeOf (items.map toType).head!)
  | _, x => x

end Reading

def Atom.reading : Atom → Reading
  | word name => .ofWord name
  | escaped name => .expr (.var name)
  | literal l => .expr (.literal l)

mutual

def Phrase.reading : Phrase → Reading
  | .mk head links => Link.readAll links head.reading

def Link.read : Link → Reading → Reading
  | .word name, x => x.word name
  | .member name, x => x.member name
  | .rank, x => x.rank
  | .list b items, x => x.list (Phrase.readings items) b

def Link.readAll : List Link → Reading → Reading
  | [], x => x
  | l :: rest, x => Link.readAll rest (l.read x)

def Phrase.readings : List Phrase → List Reading
  | [] => []
  | p :: rest => p.reading :: Phrase.readings rest

end

theorem Link.readAll_append (ls ms : List Link) (x : Reading) :
    Link.readAll (ls ++ ms) x = Link.readAll ms (Link.readAll ls x) := by
  induction ls generalizing x with
  | nil => rw [List.nil_append, Link.readAll]
  | cons l rest ih => rw [List.cons_append, Link.readAll, Link.readAll, ih]

theorem Phrase.reading_extend (p : Phrase) (l : Link) : (p.extend l).reading = l.read p.reading := by
  cases p with
  | mk head links =>
    simp [Phrase.extend, Phrase.reading, Link.readAll_append, Link.readAll]

theorem ofWord_isName {name : String} (h : isName name = true) :
    Reading.ofWord name = .type (.named name) := Reading.ofWord_name (isReserved_of_isName h)

mutual

/-- A type is read in the same way where it is to be constructed. -/
theorem readAll_typeLinks : ∀ {t : TypeRef}, t.isWellFormed = true →
    Link.readAll (typeLinks t) (.ofWord (typeWord t)) = .type t ∧
      Link.readAll (typeLinks t) (Reading.word (typeWord t) .new) = .fresh t
  | .primitive p, _ => by
    simp [typeLinks, typeWord, Link.readAll, Reading.ofWord_primitive, Reading.word, Reading.toType]
  | .named name, h => by
    simp [typeLinks, typeWord, Link.readAll, ofWord_isName h, Reading.word, Reading.toType]
  | .object, _ => ⟨rfl, rfl⟩
  | .void, _ => ⟨rfl, rfl⟩
  | .generic name args, h => by
    simp only [TypeRef.isWellFormed, Bool.and_eq_true] at h
    have hargs : (args.map Reading.type).map Reading.toType = args := by
      rw [List.map_map]
      exact List.map_id args
    simp [typeLinks, typeWord, Link.readAll, Link.read, readings_typePhrases h.2,
      ofWord_isName h.1.1, Reading.word, Reading.toType, Reading.list, hargs]
  | .array element, h => by
    obtain ⟨htype, hfresh⟩ := readAll_typeLinks (t := element) h
    simp [typeLinks, typeWord, Link.readAll_append, htype, hfresh, Link.readAll, Link.read,
      Reading.rank]

theorem readings_typePhrases : ∀ {ts : List TypeRef}, TypeRef.allWellFormed ts = true →
    Phrase.readings (typePhrases ts) = ts.map .type
  | [], _ => by rw [typePhrases, Phrase.readings, List.map_nil]
  | t :: rest, h => by
    simp only [TypeRef.allWellFormed, Bool.and_eq_true] at h
    rw [typePhrases, Phrase.readings, readings_typePhrases h.2, Phrase.reading, List.map_cons,
      ← (readAll_typeLinks h.1).1]
    rfl

end

theorem reading_typePhrase {t : TypeRef} (h : t.isWellFormed = true) :
    (typePhrase t).reading = .type t := (readAll_typeLinks h).1

/-- A real number is read as the constant it is written with, or as itself. -/
theorem reading_realPhrase (p : Primitive) (d : Number.Datum) (l : Literal) :
    (realPhrase p d l).reading = .ofExpr (Expr.real p d l) := by
  unfold realPhrase Expr.real
  cases constant? d with
  | none => rfl
  | some name =>
    change Reading.member name (.ofWord (primitive p)) = _
    rw [Reading.ofWord_primitive]
    rfl

/-- A literal is read as its canonical form. -/
theorem reading_literalPhrase (l : Literal) :
    (literalPhrase l).reading = .ofExpr (Expr.canonicalLiteral l) := by
  cases l with
  | single v => exact reading_realPhrase _ _ _
  | double v => exact reading_realPhrase _ _ _
  | bool v => cases v <;> rfl
  | _ => rfl

mutual

/-- The phrase for an expression is read as the expression. -/
theorem reading_phrase : ∀ {e : Expr}, e.isWellFormed = true →
    (phrase e).reading = .ofExpr e.canonical
  | .literal l, _ => reading_literalPhrase l
  | .var name, _ => by
    rw [phrase, Expr.canonical]
    by_cases hreserved : isReserved name = true
    · rw [if_pos hreserved, if_pos hreserved]
      rfl
    · rw [if_neg hreserved, if_neg hreserved]
      exact Reading.ofWord_name (Bool.eq_false_iff.mpr hreserved)
  | .this, _ => rfl
  | .type t, h => reading_typePhrase h
  | .field target name, h => by
    simp only [Expr.isWellFormed, Bool.and_eq_true] at h
    rw [phrase, Phrase.reading_extend, reading_phrase h.1, Link.read, Reading.member,
      Reading.toExpr_ofExpr]
    rfl
  | .new t args, h => by
    simp only [Expr.isWellFormed, Bool.and_eq_true] at h
    have hnew : Reading.ofWord "new" = .new := rfl
    rw [phrase, Phrase.reading, Atom.reading, hnew, Link.readAll, Link.read, Link.readAll_append,
      (readAll_typeLinks h.1).2, Link.readAll, Link.readAll, Link.read, Reading.list,
      readings_phrases h.2]
    rfl
  | .call target method args, h => by
    simp only [Expr.isWellFormed, Bool.and_eq_true] at h
    rw [phrase, Phrase.reading_extend, Phrase.reading_extend, reading_phrase h.1.1, Link.read,
      Link.read, Reading.member, Reading.toExpr_ofExpr, Reading.list, readings_phrases h.2]
    rfl
  | .invoke method args, h => by
    simp only [Expr.isWellFormed, Bool.and_eq_true] at h
    rw [phrase, Phrase.reading, Atom.reading, ofWord_isName h.1, Link.readAll, Link.readAll, Link.read,
      Reading.list, readings_phrases h.2]
    rfl
  | .typeOf t, h => by
    have htypeof : Reading.ofWord "typeof" = .typeOf := rfl
    rw [phrase, Phrase.reading, Atom.reading, htypeof, Link.readAll, Link.readAll, Link.read,
      Phrase.readings, Phrase.readings, reading_typePhrase h]
    rfl
  | .methodGroup name, h => ofWord_isName h

theorem readings_phrases : ∀ {es : List Expr}, Expr.allWellFormed es = true →
    (Phrase.readings (phrases es)).map Reading.toExpr = Expr.canonicalAll es
  | [], _ => by rw [phrases, Phrase.readings, Expr.canonicalAll, List.map_nil]
  | e :: rest, h => by
    simp only [Expr.allWellFormed, Bool.and_eq_true] at h
    rw [phrases, Phrase.readings, Expr.canonicalAll, List.map_cons, readings_phrases h.2,
      reading_phrase h.1, Reading.toExpr_ofExpr]

end

theorem literal_real {p : Primitive} {d : Number.Datum} {l : Literal} {text : String}
    (h : literal l = (special? (primitive p) d).getD text) : expr (Expr.real p d l) = literal l := by
  unfold Expr.real
  rw [special?_eq] at h
  cases hd : constant? d with
  | none => rfl
  | some name =>
    rw [h, hd]
    rfl

/-- The canonical form of a literal is written as the literal is. -/
theorem expr_canonicalLiteral (l : Literal) : expr (Expr.canonicalLiteral l) = literal l := by
  cases l with
  | single v => exact literal_real rfl
  | double v => exact literal_real rfl
  | _ => rfl

mutual

/-- The canonical form of an expression is written as the expression is. -/
theorem expr_canonical : ∀ e : Expr, expr e.canonical = expr e
  | .literal l => expr_canonicalLiteral l
  | .var name => by
    rw [Expr.canonical]
    by_cases hreserved : isReserved name = true
    · rw [if_pos hreserved]
    · rw [if_neg hreserved, expr, expr, type, identifier, if_neg hreserved]
  | .this => rfl
  | .type _ => rfl
  | .field target name => by rw [Expr.canonical, expr, expr, expr_canonical target]
  | .new t args => by rw [Expr.canonical, expr, expr, exprs_canonicalAll args]
  | .call target method args => by
    rw [Expr.canonical, expr, expr, expr_canonical target, exprs_canonicalAll args]
  | .invoke method args => by rw [Expr.canonical, expr, expr, exprs_canonicalAll args]
  | .typeOf _ => rfl
  | .methodGroup name => rfl

theorem exprs_canonicalAll : ∀ es : List Expr, exprs (Expr.canonicalAll es) = exprs es
  | [] => rfl
  | e :: rest => by
    rw [Expr.canonicalAll, exprs, exprs, expr_canonical e, exprs_canonicalAll rest]

end

/-- Expressions have the same text exactly if they are the same but for names that are not escaped and numbers without
digits. -/
theorem expr_eq_iff_canonical {e e' : Expr} (h : e.isWellFormed = true) (h' : e'.isWellFormed = true) :
    expr e = expr e' ↔ e.canonical = e'.canonical := by
  constructor
  · intro htext
    have hchars : (phrase e).chars = (phrase e').chars := by
      rw [chars_phrase h, chars_phrase h', htext]
    have hphrase := Phrase.eq_of_chars (isProper_phrase h) (isProper_phrase h') hchars
    have hreading := congrArg Phrase.reading hphrase
    rw [reading_phrase h, reading_phrase h'] at hreading
    simpa using congrArg Reading.toExpr hreading
  · intro hcanonical
    rw [← expr_canonical e, ← expr_canonical e', hcanonical]

/-- A call of a method of a variable, or of what has been taken for one. -/
def addTo (items : Expr) (args : List Expr) : Expr := .call items "Add" args

theorem expr_eq_iff_canonical_addTo :
    expr (addTo (.var "items") [.string "a\", \"b", .literal (.single ⟨0x7FC00000⟩)]) =
        expr (addTo (.methodGroup "items")
          [.string "a\", \"b", .field (.type (.primitive .single)) "NaN"]) ∧
      expr (addTo (.var "items") [.string "a\", \"b"]) ≠
        expr (addTo (.var "items") [.string "a", .string "b"]) := by
  constructor
  · exact (expr_eq_iff_canonical (by decide) (by decide)).mpr rfl
  · intro h
    have hcanonical := (expr_eq_iff_canonical (by decide) (by decide)).mp h
    simp [addTo, Expr.canonical, Expr.canonicalAll] at hcanonical

end Source

end ResourceCode

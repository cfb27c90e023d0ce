import ResourceCode.Proofs.Source.Phrase

/-!
The source text of an expression, as a phrase. This needs an expression whose names are words, and are reserved words
only where they are escaped.
-/

namespace ResourceCode

namespace Source

/-- A word that is not reserved. -/
def isName (name : String) : Bool := isWord name && !isReserved name

theorem isWord_of_isName {name : String} (h : isName name = true) : isWord name = true :=
  (Bool.and_eq_true_iff.mp h).1

theorem isReserved_of_isName {name : String} (h : isName name = true) : isReserved name = false := by
  simpa using (Bool.and_eq_true_iff.mp h).2

end Source

namespace TypeRef

mutual

/-- Names are words that are not reserved, and a generic type has arguments. -/
def isWellFormed : TypeRef → Bool
  | primitive _ | object | void => true
  | named name => Source.isName name
  | generic name args => Source.isName name && !args.isEmpty && allWellFormed args
  | array element => element.isWellFormed

def allWellFormed : List TypeRef → Bool
  | [] => true
  | t :: rest => t.isWellFormed && allWellFormed rest

end

end TypeRef

namespace Expr

mutual

/-- Names are words, and only those of variables may be reserved. -/
def isWellFormed : Expr → Bool
  | literal _ | this => true
  | var name => Source.isWord name
  | type t => t.isWellFormed
  | field target name => target.isWellFormed && Source.isName name
  | new t args => t.isWellFormed && allWellFormed args
  | call target method args => target.isWellFormed && Source.isName method && allWellFormed args
  | invoke method args => Source.isName method && allWellFormed args
  | typeOf t => t.isWellFormed
  | methodGroup name => Source.isName name

def allWellFormed : List Expr → Bool
  | [] => true
  | e :: rest => e.isWellFormed && allWellFormed rest

end

end Expr

namespace Source

open Number (Datum)

/-- The member that stands for a number without digits. -/
def constant? : Datum → Option String
  | .undefined => some "NaN"
  | .infinite true => some "NegativeInfinity"
  | .infinite false => some "PositiveInfinity"
  | .finite .. => none

def wordPhrase (name : String) : Phrase := .mk (.word name) []

def Phrase.extend : Phrase → Link → Phrase
  | .mk head links, l => .mk head (links ++ [l])

def typeWord : TypeRef → String
  | .primitive p => primitive p
  | .named name => name
  | .generic name _ => name
  | .array element => typeWord element
  | .object => "object"
  | .void => "void"

mutual

def typeLinks : TypeRef → List Link
  | .generic _ args => [.list .angle (typePhrases args)]
  | .array element => typeLinks element ++ [.rank]
  | _ => []

def typePhrases : List TypeRef → List Phrase
  | [] => []
  | t :: rest => .mk (.word (typeWord t)) (typeLinks t) :: typePhrases rest

end

def typePhrase (t : TypeRef) : Phrase := .mk (.word (typeWord t)) (typeLinks t)

/-- The phrase for a real number, given the literal and its type. -/
def realPhrase (p : Primitive) (d : Datum) (l : Literal) : Phrase :=
  match constant? d with
  | some name => .mk (.word (primitive p)) [.member name]
  | none => .mk (.literal l) []

def literalPhrase : Literal → Phrase
  | .null => wordPhrase "null"
  | .bool v => wordPhrase (if v then "true" else "false")
  | .single v => realPhrase .single v.datum (.single v)
  | .double v => realPhrase .double v.datum (.double v)
  | l => .mk (.literal l) []

mutual

def phrase : Expr → Phrase
  | .literal l => literalPhrase l
  | .var name => if isReserved name then .mk (.escaped name) [] else wordPhrase name
  | .this => wordPhrase "this"
  | .type t => typePhrase t
  | .field target name => (phrase target).extend (.member name)
  | .new t args =>
    .mk (.word "new") (.word (typeWord t) :: (typeLinks t ++ [.list .round (phrases args)]))
  | .call target method args =>
    ((phrase target).extend (.member method)).extend (.list .round (phrases args))
  | .invoke method args => .mk (.word method) [.list .round (phrases args)]
  | .typeOf t => .mk (.word "typeof") [.list .round [typePhrase t]]
  | .methodGroup name => wordPhrase name

def phrases : List Expr → List Phrase
  | [] => []
  | e :: rest => phrase e :: phrases rest

end

theorem Link.allChars_append (ls ms : List Link) :
    Link.allChars (ls ++ ms) = Link.allChars ls ++ Link.allChars ms := by
  induction ls with
  | nil => simp [Link.allChars]
  | cons l rest ih => simp [Link.allChars, ih]

theorem Phrase.chars_extend (p : Phrase) (l : Link) : (p.extend l).chars = p.chars ++ l.chars := by
  cases p with
  | mk head links => simp [Phrase.extend, Phrase.chars, Link.allChars_append, Link.allChars]

@[simp] theorem chars_wordPhrase (name : String) : (wordPhrase name).chars = name.toList := by
  simp [wordPhrase, Phrase.chars, Atom.chars, Link.allChars]

theorem itemChars_eq (ps : List Phrase) :
    Phrase.itemChars ps = [',', ' '].intercalate (ps.map Phrase.chars) := by
  cases ps with
  | nil => simp [Phrase.itemChars]
  | cons p rest =>
    rw [Phrase.itemChars]
    induction rest generalizing p with
    | nil => simp [Phrase.moreChars]
    | cons q rest ih =>
      rw [List.map_cons, List.map_cons, List.intercalate_cons_cons, ← List.map_cons, ← ih]
      simp [Phrase.moreChars]

/-- Items with commas between them are the list of their texts. -/
theorem itemChars_commas {items : List String} {ps : List Phrase}
    (h : ps.map Phrase.chars = items.map String.toList) :
    Phrase.itemChars ps = (commas items).toList := by
  rw [itemChars_eq, h, commas, String.toList_intercalate]
  rfl

mutual

/-- The phrase of a type has the text of the type. -/
theorem chars_typePhrase : ∀ {t : TypeRef}, t.isWellFormed = true →
    (typePhrase t).chars = (type t).toList
  | .primitive _, _ | .named _, _ | .object, _ | .void, _ => by
    simp [typePhrase, typeWord, typeLinks, type, Phrase.chars, Atom.chars, Link.allChars]
  | .generic name [], h => by simp [TypeRef.isWellFormed] at h
  | .generic name (t :: args), h => by
    simp only [TypeRef.isWellFormed, Bool.and_eq_true] at h
    have hitems := itemChars_commas (chars_typePhrases h.2)
    simp [typePhrase, typeWord, typeLinks, Phrase.chars, Atom.chars, Link.allChars, Link.chars, type,
      hitems, Bracket.opening, Bracket.closing]
  | .array element, h => by
    have helement := chars_typePhrase (t := element) h
    have harray : typePhrase (.array element) = (typePhrase element).extend .rank := rfl
    rw [harray, Phrase.chars_extend, helement]
    simp [type, Link.chars]

theorem chars_typePhrases : ∀ {ts : List TypeRef}, TypeRef.allWellFormed ts = true →
    (typePhrases ts).map Phrase.chars = (types ts).map String.toList
  | [], _ => rfl
  | t :: rest, h => by
    simp only [TypeRef.allWellFormed, Bool.and_eq_true] at h
    rw [typePhrases, types, List.map_cons, List.map_cons, chars_typePhrases h.2,
      ← chars_typePhrase h.1]
    rfl

end

theorem special?_eq (keyword : String) (d : Datum) :
    special? keyword d = (constant? d).map (keyword ++ "." ++ ·) := by
  cases d with
  | infinite negative => cases negative <;> simp [special?, constant?, String.append_assoc]
  | _ => simp [special?, constant?, String.append_assoc]

theorem chars_realPhrase {p : Primitive} {d : Datum} {l : Literal} {text : String}
    (h : literal l = (special? (primitive p) d).getD text) :
    (realPhrase p d l).chars = (literal l).toList := by
  unfold realPhrase
  rw [special?_eq] at h
  cases hd : constant? d with
  | none => simp [Phrase.chars, Atom.chars, Link.allChars]
  | some name =>
    rw [h, hd]
    simp [Phrase.chars, Atom.chars, Link.allChars, Link.chars]

/-- The phrase of a literal has the text of the literal. -/
theorem chars_literalPhrase (l : Literal) : (literalPhrase l).chars = (literal l).toList := by
  cases l with
  | null => exact chars_wordPhrase _
  | bool v => exact chars_wordPhrase _
  | single v => exact chars_realPhrase rfl
  | double v => exact chars_realPhrase rfl
  | _ => simp [literalPhrase, Phrase.chars, Atom.chars, Link.allChars]

mutual

/-- The phrase for an expression has the text of the expression. -/
theorem chars_phrase : ∀ {e : Expr}, e.isWellFormed = true → (phrase e).chars = (expr e).toList
  | .literal l, _ => by rw [phrase, expr, chars_literalPhrase]
  | .var name, _ => by
    rw [phrase, expr, identifier]
    split <;> simp [Phrase.chars, Atom.chars, Link.allChars]
  | .this, _ => by rw [phrase, expr, chars_wordPhrase]
  | .type t, h => by rw [phrase, expr, chars_typePhrase h]
  | .field target name, h => by
    simp only [Expr.isWellFormed, Bool.and_eq_true] at h
    simp [phrase, expr, Phrase.chars_extend, chars_phrase h.1, Link.chars]
  | .new t args, h => by
    simp only [Expr.isWellFormed, Bool.and_eq_true] at h
    have htype := chars_typePhrase h.1
    have hargs := itemChars_commas (chars_phrases h.2)
    rw [typePhrase, Phrase.chars, Atom.chars] at htype
    simp [phrase, expr, Phrase.chars, Atom.chars, Link.allChars, Link.allChars_append, Link.chars,
      hargs, ← htype, Bracket.opening, Bracket.closing]
  | .call target method args, h => by
    simp only [Expr.isWellFormed, Bool.and_eq_true] at h
    have hargs := itemChars_commas (chars_phrases h.2)
    simp [phrase, expr, Phrase.chars_extend, chars_phrase h.1.1, Link.chars, hargs,
      Bracket.opening, Bracket.closing]
  | .invoke method args, h => by
    simp only [Expr.isWellFormed, Bool.and_eq_true] at h
    have hargs := itemChars_commas (chars_phrases h.2)
    simp [phrase, expr, Phrase.chars, Atom.chars, Link.allChars, Link.chars, hargs,
      Bracket.opening, Bracket.closing]
  | .typeOf t, h => by
    simp [phrase, expr, Phrase.chars, Atom.chars, Link.allChars, Link.chars, Phrase.itemChars,
      Phrase.moreChars, chars_typePhrase h, Bracket.opening, Bracket.closing]
  | .methodGroup name, _ => by rw [phrase, expr, chars_wordPhrase]

theorem chars_phrases : ∀ {es : List Expr}, Expr.allWellFormed es = true →
    (phrases es).map Phrase.chars = (exprs es).map String.toList
  | [], _ => rfl
  | e :: rest, h => by
    simp only [Expr.allWellFormed, Bool.and_eq_true] at h
    rw [phrases, exprs, List.map_cons, List.map_cons, chars_phrases h.2, chars_phrase h.1]

end

theorem allProper_append {ls ms : List Link} (hl : Link.AllProper ls) (hm : Link.AllProper ms) :
    Link.AllProper (ls ++ ms) := by
  induction ls with
  | nil => exact hm
  | cons l rest ih =>
    rw [Link.AllProper] at hl
    exact ⟨hl.1, ih hl.2⟩

theorem isProper_extend {p : Phrase} {l : Link} (hp : p.IsProper) (hl : l.IsProper) :
    (p.extend l).IsProper := by
  cases p with
  | mk head links =>
    rw [Phrase.IsProper] at hp
    exact ⟨hp.1, allProper_append hp.2 ⟨hl, trivial⟩⟩

theorem isWord_typeWord {t : TypeRef} (h : t.isWellFormed = true) : isWord (typeWord t) = true := by
  induction t using typeWord.induct with
  | case1 p => exact isWord_primitive p
  | case2 name => exact isWord_of_isName h
  | case3 name args =>
    simp only [TypeRef.isWellFormed, Bool.and_eq_true] at h
    exact isWord_of_isName h.1.1
  | case4 element ih => exact ih h
  | case5 => rfl
  | case6 => rfl

mutual

/-- The links of a type are proper when its names are. -/
theorem allProper_typeLinks : ∀ {t : TypeRef}, t.isWellFormed = true → Link.AllProper (typeLinks t)
  | .primitive _, _ | .named _, _ | .object, _ | .void, _ => trivial
  | .generic name args, h => by
    simp only [TypeRef.isWellFormed, Bool.and_eq_true] at h
    exact ⟨allProper_typePhrases h.2, trivial⟩
  | .array element, h => allProper_append (allProper_typeLinks (t := element) h) ⟨trivial, trivial⟩

theorem allProper_typePhrases : ∀ {ts : List TypeRef}, TypeRef.allWellFormed ts = true →
    Phrase.AllProper (typePhrases ts)
  | [], _ => trivial
  | t :: rest, h => by
    simp only [TypeRef.allWellFormed, Bool.and_eq_true] at h
    exact ⟨⟨isWord_typeWord h.1, allProper_typeLinks h.1⟩, allProper_typePhrases h.2⟩

end

theorem isProper_realPhrase {p : Primitive} {d : Datum} {l : Literal}
    (h : ∀ negative m e, d = .finite negative m e → IsSpelled l) : (realPhrase p d l).IsProper := by
  unfold realPhrase
  cases d with
  | undefined => exact ⟨isWord_primitive p, rfl, trivial⟩
  | infinite negative => cases negative <;> exact ⟨isWord_primitive p, rfl, trivial⟩
  | finite negative m e => exact ⟨h _ _ _ rfl, trivial⟩

theorem isProper_literalPhrase (l : Literal) : (literalPhrase l).IsProper := by
  cases l with
  | null => exact ⟨rfl, trivial⟩
  | bool v => cases v <;> exact ⟨rfl, trivial⟩
  | single v => exact isProper_realPhrase fun _ _ _ hdatum => .number (.single hdatum)
  | double v => exact isProper_realPhrase fun _ _ _ hdatum => .number (.double hdatum)
  | char c => exact ⟨.char c, trivial⟩
  | string s => exact ⟨.string s, trivial⟩
  | _ => exact ⟨.number (.integer rfl rfl), trivial⟩

mutual

/-- The phrase of an expression is proper when its names are. -/
theorem isProper_phrase : ∀ {e : Expr}, e.isWellFormed = true → (phrase e).IsProper
  | .literal l, _ => isProper_literalPhrase l
  | .var name, h => by
    rw [phrase]
    split <;> exact ⟨h, trivial⟩
  | .this, _ => ⟨rfl, trivial⟩
  | .type t, h => ⟨isWord_typeWord h, allProper_typeLinks h⟩
  | .field target name, h => by
    simp only [Expr.isWellFormed, Bool.and_eq_true] at h
    exact isProper_extend (isProper_phrase h.1) (isWord_of_isName h.2)
  | .new t args, h => by
    simp only [Expr.isWellFormed, Bool.and_eq_true] at h
    have hargs : Link.AllProper [.list .round (phrases args)] := ⟨allProper_phrases h.2, trivial⟩
    exact ⟨rfl, isWord_typeWord h.1, allProper_append (allProper_typeLinks h.1) hargs⟩
  | .call target method args, h => by
    simp only [Expr.isWellFormed, Bool.and_eq_true] at h
    exact isProper_extend (isProper_extend (isProper_phrase h.1.1) (isWord_of_isName h.1.2))
      (allProper_phrases h.2)
  | .invoke method args, h => by
    simp only [Expr.isWellFormed, Bool.and_eq_true] at h
    exact ⟨isWord_of_isName h.1, allProper_phrases h.2, trivial⟩
  | .typeOf t, h => by
    have ht : (typePhrase t).IsProper := ⟨isWord_typeWord h, allProper_typeLinks h⟩
    exact ⟨rfl, ⟨ht, trivial⟩, trivial⟩
  | .methodGroup name, h => ⟨isWord_of_isName h, trivial⟩

theorem allProper_phrases : ∀ {es : List Expr}, Expr.allWellFormed es = true →
    Phrase.AllProper (phrases es)
  | [], _ => trivial
  | e :: rest, h => by
    simp only [Expr.allWellFormed, Bool.and_eq_true] at h
    exact ⟨isProper_phrase h.1, allProper_phrases h.2⟩

end

end Source

end ResourceCode

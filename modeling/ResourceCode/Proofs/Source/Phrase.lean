import ResourceCode.Proofs.Source.Literal

/-!
Phrases, the plain shape of source text: a word or a literal, and behind it members, brackets with lists of phrases,
and the like. The text of a phrase tells the phrase. Whatever it goes on with, the first character of each piece shows
what kind of piece it is, and each piece tells where it ends.
-/

namespace ResourceCode.Source

inductive Atom where
  | word (name : String)
  | escaped (name : String)
  | literal (l : Literal)

inductive Bracket where
  | round
  | angle

def Bracket.opening : Bracket → Char
  | round => '('
  | angle => '<'

def Bracket.closing : Bracket → Char
  | round => ')'
  | angle => '>'

mutual

inductive Phrase where
  | mk (head : Atom) (links : List Link)

/-- What a phrase goes on with: another word behind a blank, a member, an empty pair of square brackets, or a list in
brackets. -/
inductive Link where
  | word (name : String)
  | member (name : String)
  | rank
  | list (b : Bracket) (items : List Phrase)

end

def Atom.chars : Atom → List Char
  | word name => name.toList
  | escaped name => '@' :: name.toList
  | literal l => (Source.literal l).toList

mutual

def Phrase.chars : Phrase → List Char
  | .mk head links => head.chars ++ Link.allChars links

def Link.chars : Link → List Char
  | .word name => ' ' :: name.toList
  | .member name => '.' :: name.toList
  | .rank => ['[', ']']
  | .list b items => b.opening :: (Phrase.itemChars items ++ [b.closing])

def Link.allChars : List Link → List Char
  | [] => []
  | l :: rest => l.chars ++ Link.allChars rest

/-- The items of a list, the first of them without a comma. -/
def Phrase.itemChars : List Phrase → List Char
  | [] => []
  | p :: rest => p.chars ++ Phrase.moreChars rest

def Phrase.moreChars : List Phrase → List Char
  | [] => []
  | p :: rest => ',' :: ' ' :: (p.chars ++ Phrase.moreChars rest)

end

def Atom.IsProper : Atom → Prop
  | word name => isWord name = true
  | escaped name => isWord name = true
  | literal l => IsSpelled l

mutual

/-- All words in it are words, and all literals are written as literals. -/
def Phrase.IsProper : Phrase → Prop
  | .mk head links => head.IsProper ∧ Link.AllProper links

def Link.IsProper : Link → Prop
  | .word name => isWord name = true
  | .member name => isWord name = true
  | .rank => True
  | .list _ items => Phrase.AllProper items

def Link.AllProper : List Link → Prop
  | [] => True
  | l :: rest => l.IsProper ∧ Link.AllProper rest

def Phrase.AllProper : List Phrase → Prop
  | [] => True
  | p :: rest => p.IsProper ∧ Phrase.AllProper rest

end

def Atom.Starts : Atom → Char → Prop
  | word _, c => isWordStart c = true
  | escaped _, c => c = '@'
  | literal _, c => isLiteralStart c = true

def isLinkStart (c : Char) : Bool := [' ', '.', '[', '(', '<'].contains c

/-- What may stand behind a phrase. -/
def isEnd (c : Char) : Bool := [',', ')', '>'].contains c

def Ends (rest : List Char) : Prop := ∀ c ∈ rest.head?, isEnd c = true

theorem isDigit_of_isWordStart {c : Char} (h : isWordStart c = true) : c.isDigit = false := by
  delta isWordStart Char.isAlpha Char.isUpper Char.isLower at h
  delta Char.isDigit
  simp only [Bool.or_eq_true, Bool.and_eq_true, decide_eq_true_eq, UInt32.le_iff_toNat_le,
    ge_iff_le, beq_iff_eq, Bool.and_eq_false_iff, decide_eq_false_iff_not] at h ⊢
  rcases h with (h | h) | rfl
  · have hcodes : ('A' : Char).val.toNat = 65 ∧ ('9' : Char).val.toNat = 57 := ⟨rfl, rfl⟩
    omega
  · have hcodes : ('a' : Char).val.toNat = 97 ∧ ('9' : Char).val.toNat = 57 := ⟨rfl, rfl⟩
    omega
  · exact .inr (by decide)

theorem not_isLiteralStart_of_isWordStart {c : Char} (h : isWordStart c = true) :
    isLiteralStart c = false := by
  have hdigit := isDigit_of_isWordStart h
  have hne (d : Char) (hd : isWordStart d = false) : (c == d) = false := by
    apply beq_false_of_ne
    rintro rfl
    rw [h] at hd
    cases hd
  simp only [isLiteralStart, isNumberStart, hdigit, hne '(' rfl, hne '-' rfl, hne '\'' rfl,
    hne '"' rfl, Bool.or_false]

theorem Atom.exists_cons {a : Atom} (ha : a.IsProper) :
    ∃ c rest, a.chars = c :: rest ∧ a.Starts c := by
  cases a with
  | word name => exact exists_cons_of_isWord ha
  | escaped name => exact ⟨_, _, rfl, rfl⟩
  | literal l => exact exists_cons_of_isSpelled ha

theorem Atom.not_isEnd {a : Atom} {c : Char} (ha : a.Starts c) : isEnd c = false := by
  rw [Bool.eq_false_iff]
  intro hend
  simp only [isEnd, List.contains_eq_mem, decide_eq_true_eq, List.mem_cons, List.not_mem_nil,
    or_false] at hend
  cases a <;> rcases hend with rfl | rfl | rfl <;> cases ha

theorem Link.exists_cons (l : Link) : ∃ c rest, l.chars = c :: rest ∧ isLinkStart c = true := by
  cases l with
  | list b items => cases b <;> exact ⟨_, _, by rw [Link.chars], rfl⟩
  | _ => exact ⟨_, _, by rw [Link.chars], rfl⟩

theorem not_isWordChar_of_isLinkStart {c : Char} (h : isLinkStart c = true) :
    isWordChar c = false ∧ isEnd c = false := by
  simp only [isLinkStart, List.contains_eq_mem, decide_eq_true_eq, List.mem_cons, List.not_mem_nil,
    or_false] at h
  rcases h with rfl | rfl | rfl | rfl | rfl <;> decide

theorem Ends.follows {r : List Char} (h : Ends r) : Follows isWordChar r := by
  cases r with
  | nil => exact ⟨stops_nil _, nofun⟩
  | cons c rest =>
    have hc := h c rfl
    simp only [isEnd, List.contains_eq_mem, decide_eq_true_eq, List.mem_cons, List.not_mem_nil,
      or_false] at hc
    refine ⟨stops_cons.mpr ?_, fun more hmore => ?_⟩
    · rcases hc with rfl | rfl | rfl <;> decide
    · cases hmore
      simp at hc

/-- A point that a link begins with has a word behind it, so it cannot be taken for the one of a number. -/
theorem follows_links {links : List Link} {r : List Char} (hl : Link.AllProper links) (hr : Ends r) :
    Follows isWordChar (Link.allChars links ++ r) := by
  cases links with
  | nil => exact hr.follows
  | cons l rest =>
    obtain ⟨c, more, hchars, hstart⟩ := l.exists_cons
    rw [Link.allChars, hchars]
    refine ⟨stops_cons.mpr (not_isWordChar_of_isLinkStart hstart).1, fun text htext => ?_⟩
    cases l with
    | member name =>
      rw [Link.chars] at hchars
      obtain ⟨d, ds, hname, hd⟩ := exists_cons_of_isWord hl.1
      cases hchars
      cases htext
      rw [hname]
      exact stops_cons.mpr (isDigit_of_isWordStart hd)
    | list b items =>
      rw [Link.chars] at hchars
      cases b <;> cases hchars <;> cases htext
    | _ =>
      rw [Link.chars] at hchars
      cases hchars
      cases htext

/-- Atoms with text behind them are the same when the whole texts are, as long as no word goes on. -/
theorem Atom.append_inj {a b : Atom} {r s : List Char} (ha : a.IsProper) (hb : b.IsProper)
    (hr : Follows isWordChar r) (hs : Follows isWordChar s) (h : a.chars ++ r = b.chars ++ s) :
    a = b ∧ r = s := by
  -- the kind of an atom can be read off the first character
  obtain ⟨c, cs, hac, hc⟩ := Atom.exists_cons ha
  obtain ⟨d, ds, hbd, hd⟩ := Atom.exists_cons hb
  obtain rfl : c = d := by
    rw [hac, hbd] at h
    exact (List.cons.inj h).1
  clear hac hbd
  have hliteral (hword : isWordStart c = true) (hlit : isLiteralStart c = true) : False := by
    rw [not_isLiteralStart_of_isWordStart hword] at hlit
    cases hlit
  cases a with
  | word m =>
    cases b with
    | word n =>
      obtain ⟨rfl, hrest⟩ := word_append_inj ha hb hr.stops hs.stops h
      exact ⟨rfl, hrest⟩
    | escaped n =>
      cases hd
      cases hc
    | literal l => exact (hliteral hc hd).elim
  | escaped m =>
    cases hc
    cases b with
    | word n => cases hd
    | escaped n =>
      obtain ⟨rfl, hrest⟩ := word_append_inj ha hb hr.stops hs.stops (List.cons.inj h).2
      exact ⟨rfl, hrest⟩
    | literal l => cases hd
  | literal l =>
    cases b with
    | word n => exact (hliteral hd hc).elim
    | escaped n =>
      cases hd
      cases hc
    | literal l' =>
      obtain ⟨rfl, hrest⟩ := literal_append_inj ha hb hr hs h
      exact ⟨rfl, hrest⟩

/-- Behind an item stands a comma or the closing bracket. -/
theorem Phrase.ends_more (items : List Phrase) (b : Bracket) (r : List Char) :
    Ends (Phrase.moreChars items ++ b.closing :: r) := by
  intro c hc
  cases items with
  | nil =>
    rw [Phrase.moreChars] at hc
    cases b <;> cases hc <;> rfl
  | cons p rest =>
    rw [Phrase.moreChars] at hc
    cases hc
    rfl

theorem Phrase.ne_closing {p : Phrase} (hp : p.IsProper) (b : Bracket) (r s : List Char) :
    p.chars ++ r ≠ b.closing :: s := by
  cases p with
  | mk head links =>
    rw [Phrase.IsProper] at hp
    obtain ⟨c, rest, hchars, hc⟩ := Atom.exists_cons hp.1
    rw [Phrase.chars, hchars]
    rintro heq
    have hend := Atom.not_isEnd hc
    rw [(List.cons.inj heq).1] at hend
    cases b <;> cases hend

/-- A link is never taken for the end of a phrase. -/
theorem Link.ne_end (l : Link) {r : List Char} (hr : Ends r) {more s : List Char} :
    r ≠ l.chars ++ more ++ s := by
  obtain ⟨c, cs, hchars, hstart⟩ := l.exists_cons
  rintro rfl
  have hend := hr c (by rw [hchars]; rfl)
  rw [(not_isWordChar_of_isLinkStart hstart).2] at hend
  cases hend

mutual

/-- By induction on the first of the two phrases, together with its links and the items in them. -/
theorem Phrase.append_inj : ∀ {p q : Phrase} {r s : List Char}, p.IsProper → q.IsProper →
    Ends r → Ends s → p.chars ++ r = q.chars ++ s → p = q ∧ r = s
  | .mk a ls, .mk b ms, r, s, hp, hq, hr, hs, h => by
    rw [Phrase.IsProper] at hp hq
    rw [Phrase.chars, Phrase.chars, List.append_assoc, List.append_assoc] at h
    obtain ⟨rfl, hlinks⟩ :=
      Atom.append_inj hp.1 hq.1 (follows_links hp.2 hr) (follows_links hq.2 hs) h
    obtain ⟨rfl, hrest⟩ := Link.all_append_inj hp.2 hq.2 hr hs hlinks
    exact ⟨rfl, hrest⟩

/-- Links with text behind them are the same when the whole texts are. -/
theorem Link.append_inj : ∀ {l m : Link} {r s : List Char}, l.IsProper → m.IsProper →
    Stops isWordChar r → Stops isWordChar s → l.chars ++ r = m.chars ++ s → l = m ∧ r = s
  | .word n, m, r, s, hl, hm, hr, hs, h => by
    cases m with
    | word k =>
      rw [Link.chars, Link.chars] at h
      obtain ⟨rfl, hrest⟩ := word_append_inj hl hm hr hs (List.cons.inj h).2
      exact ⟨rfl, hrest⟩
    | list b items => cases b <;> cases (List.cons.inj h).1
    | _ => cases (List.cons.inj h).1
  | .member n, m, r, s, hl, hm, hr, hs, h => by
    cases m with
    | member k =>
      rw [Link.chars, Link.chars] at h
      obtain ⟨rfl, hrest⟩ := word_append_inj hl hm hr hs (List.cons.inj h).2
      exact ⟨rfl, hrest⟩
    | list b items => cases b <;> cases (List.cons.inj h).1
    | _ => cases (List.cons.inj h).1
  | .rank, m, r, s, hl, hm, hr, hs, h => by
    cases m with
    | rank => exact ⟨rfl, List.append_cancel_left h⟩
    | list b items => cases b <;> cases (List.cons.inj h).1
    | _ => cases (List.cons.inj h).1
  | .list b ps, m, r, s, hl, hm, hr, hs, h => by
    cases m with
    | list c qs =>
      obtain rfl : b = c := by
        cases b <;> cases c <;> first | rfl | cases (List.cons.inj h).1
      rw [Link.IsProper] at hl hm
      simp only [Link.chars, List.cons_append, List.append_assoc, List.nil_append, List.cons.injEq,
        true_and] at h
      obtain ⟨rfl, hrest⟩ := Phrase.items_append_inj hl hm h
      exact ⟨rfl, hrest⟩
    | _ => cases b <;> cases (List.cons.inj h).1

theorem Link.all_append_inj : ∀ {ls ms : List Link} {r s : List Char}, Link.AllProper ls →
    Link.AllProper ms → Ends r → Ends s → Link.allChars ls ++ r = Link.allChars ms ++ s →
    ls = ms ∧ r = s
  | [], [], r, s, hl, hm, hr, hs, h => ⟨rfl, h⟩
  | [], m :: ms, r, s, hl, hm, hr, hs, h => by
    exact (Link.ne_end m hr h).elim
  | l :: ls, [], r, s, hl, hm, hr, hs, h => by
    exact (Link.ne_end l hs h.symm).elim
  | l :: ls, m :: ms, r, s, hl, hm, hr, hs, h => by
    rw [Link.AllProper] at hl hm
    rw [Link.allChars, Link.allChars, List.append_assoc, List.append_assoc] at h
    obtain ⟨rfl, hlinks⟩ := Link.append_inj hl.1 hm.1 (follows_links hl.2 hr).stops
      (follows_links hm.2 hs).stops h
    obtain ⟨rfl, hrest⟩ := Link.all_append_inj hl.2 hm.2 hr hs hlinks
    exact ⟨rfl, hrest⟩

/-- Items in brackets are told by their text, up to the closing bracket. -/
theorem Phrase.items_append_inj : ∀ {ps qs : List Phrase} {b : Bracket} {r s : List Char},
    Phrase.AllProper ps → Phrase.AllProper qs →
    Phrase.itemChars ps ++ b.closing :: r = Phrase.itemChars qs ++ b.closing :: s → ps = qs ∧ r = s
  | [], [], b, r, s, hp, hq, h => ⟨rfl, (List.cons.inj h).2⟩
  | [], q :: qs, b, r, s, hp, hq, h => by
    rw [Phrase.AllProper] at hq
    rw [Phrase.itemChars, Phrase.itemChars, List.append_assoc] at h
    exact (Phrase.ne_closing hq.1 b _ _ h.symm).elim
  | p :: ps, [], b, r, s, hp, hq, h => by
    rw [Phrase.AllProper] at hp
    rw [Phrase.itemChars, Phrase.itemChars, List.append_assoc] at h
    exact (Phrase.ne_closing hp.1 b _ _ h).elim
  | p :: ps, q :: qs, b, r, s, hp, hq, h => by
    rw [Phrase.AllProper] at hp hq
    rw [Phrase.itemChars, Phrase.itemChars, List.append_assoc, List.append_assoc] at h
    obtain ⟨rfl, hmore⟩ := Phrase.append_inj hp.1 hq.1 (Phrase.ends_more ps b r)
      (Phrase.ends_more qs b s) h
    obtain ⟨rfl, hrest⟩ := Phrase.more_append_inj hp.2 hq.2 hmore
    exact ⟨rfl, hrest⟩

theorem Phrase.more_append_inj : ∀ {ps qs : List Phrase} {b : Bracket} {r s : List Char},
    Phrase.AllProper ps → Phrase.AllProper qs →
    Phrase.moreChars ps ++ b.closing :: r = Phrase.moreChars qs ++ b.closing :: s → ps = qs ∧ r = s
  | [], [], b, r, s, hp, hq, h => ⟨rfl, (List.cons.inj h).2⟩
  | [], q :: qs, b, r, s, hp, hq, h => by cases b <;> cases (List.cons.inj h).1
  | p :: ps, [], b, r, s, hp, hq, h => by cases b <;> cases (List.cons.inj h).1
  | p :: ps, q :: qs, b, r, s, hp, hq, h => by
    rw [Phrase.AllProper] at hp hq
    simp only [Phrase.moreChars, List.cons_append, List.append_assoc, List.cons.injEq,
      true_and] at h
    obtain ⟨rfl, hmore⟩ := Phrase.append_inj hp.1 hq.1 (Phrase.ends_more ps b r)
      (Phrase.ends_more qs b s) h
    obtain ⟨rfl, hrest⟩ := Phrase.more_append_inj hp.2 hq.2 hmore
    exact ⟨rfl, hrest⟩

end

/-- Different phrases have different texts. -/
theorem Phrase.eq_of_chars {p q : Phrase} (hp : p.IsProper) (hq : q.IsProper)
    (h : p.chars = q.chars) : p = q := by
  have hnil : Ends [] := nofun
  exact (Phrase.append_inj hp hq hnil hnil (congrArg (· ++ []) h)).1

end ResourceCode.Source

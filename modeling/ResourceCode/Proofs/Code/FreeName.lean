import ResourceCode.Code
import ResourceCode.Proofs.Options.Naming
import Mathlib.Data.List.Nodup
import Mathlib.Data.List.Perm.Subperm
import Mathlib.Order.Lattice.Nat

/-!
Free names. The search for one tries more names than are in use, so it always comes to a free name, and what it
gives is the name it began with, with a number behind it at most. Names that were begun with stems of different
lengths therefore stay different, provided that the stems do not end in digits. The number is the least one that
will do, so a search that only counts up ends at the same name.
-/

namespace ResourceCode

namespace Text

/-- The length of a text without the digits at its end. -/
def stemLength (s : String) : Nat := (s.toList.reverse.dropWhile Char.isDigit).length

/-- Digits at the end do not count for the stem of a name. -/
theorem stemLength_numbered (s : String) (n : Nat) :
    stemLength (s ++ toString n) = stemLength s := by
  have hdigits : ∀ c ∈ (toString n).toList.reverse, c.isDigit = true := by
    intro c hc
    rw [List.mem_reverse, Nat.toString_eq_ofList_toDigits, String.toList_ofList] at hc
    exact Nat.isDigit_of_mem_toDigits (by decide) (by decide) hc
  unfold stemLength
  rw [String.toList_append, List.reverse_append, List.dropWhile_append_of_pos hdigits]

/-- Different numbers give different names. -/
theorem numbered_injective (s : String) {i j : Nat} (h : s ++ toString i = s ++ toString j) :
    i = j := by
  have hlist := congrArg String.toList h
  simp only [String.toList_append] at hlist
  exact toString_injective (String.toList_injective (List.append_cancel_left hlist))

end Text

namespace Class

/-- The names of the methods, in order. -/
def names (c : Class) : List String := c.methods.map Method.name

@[simp] theorem names_add (c : Class) (m : Method) : (c.add m).names = c.names ++ [m.name] := by
  simp [names]

variable (c : Class) (taken base : String)

/-- A name that is left for a further method: none of the class has it, and it is not the one already taken. -/
def IsFree (name : String) : Prop := name ∉ c.names ∧ name ≠ taken

instance (name : String) : Decidable (c.IsFree taken name) := inferInstanceAs (Decidable (_ ∧ _))

theorem isFree_iff {name : String} :
    (!c.hasMethod name && name != taken) = true ↔ c.IsFree taken name := by
  rw [Bool.and_eq_true, Bool.not_eq_true', bne_iff_ne, ← Bool.not_eq_true, hasMethod_iff]
  rfl

/-- Among more distinct names than are in use, one is free. -/
theorem exists_free {candidates : List String} (hn : candidates.Nodup)
    (hlength : c.methods.length + 1 < candidates.length) :
    ∃ name ∈ candidates, c.IsFree taken name := by
  by_contra hnone
  have hused : candidates ⊆ taken :: c.names := by
    intro name hname
    by_cases htaken : name = taken
    · exact List.mem_cons.mpr (.inl htaken)
    · by_cases hmem : name ∈ c.names
      · exact List.mem_cons_of_mem _ hmem
      · exact absurd ⟨name, hname, hmem, htaken⟩ hnone
  have hle := (List.subperm_of_subset hn hused).length_le
  simp only [names, List.length_cons, List.length_map] at hle
  omega

/-- The numbers that make the base a free name when they stand behind it. -/
def freeNumbers : Set Nat := {n | 2 ≤ n ∧ c.IsFree taken (base ++ toString n)}

/-- One of them comes soon, however the names in use are chosen. -/
theorem exists_isLeast_freeNumbers :
    ∃ n, IsLeast (c.freeNumbers taken base) n ∧ n < c.methods.length + 4 := by
  have hinjective : Function.Injective fun n : Nat => base ++ toString (n + 2) :=
    fun i j h => Nat.add_right_cancel (Text.numbered_injective base h)
  have hn := (List.nodup_range (n := c.methods.length + 2)).map hinjective
  obtain ⟨name, hmem, hfree⟩ := c.exists_free taken hn (by simp)
  obtain ⟨i, hi, rfl⟩ := List.mem_map.mp hmem
  have hnumber : i + 2 ∈ c.freeNumbers taken base := ⟨by omega, hfree⟩
  refine ⟨sInf (c.freeNumbers taken base), isLeast_csInf ⟨_, hnumber⟩, ?_⟩
  have hle := Nat.sInf_le hnumber
  have hlt := List.mem_range.mp hi
  omega

variable {c taken base} {n : Nat}

/-- A base name that is free is taken as it is. -/
theorem freeName_of_isFree (h : c.IsFree taken base) : c.freeName taken base = base :=
  if_pos ((c.isFree_iff taken).mpr h)

/-- Otherwise the search counts up from two and stops at the least free number, which it reaches in time. -/
theorem freeName_of_isLeast (hbase : ¬ c.IsFree taken base) (hn : IsLeast (c.freeNumbers taken base) n)
    (hlt : n < c.methods.length + 4) : c.freeName taken base = base ++ toString n := by
  obtain ⟨⟨htwo, hfree⟩, hleast⟩ := hn
  have hfind : (List.range (c.methods.length + 2)).find?
      ((fun name => !c.hasMethod name && name != taken) ∘ fun i => base ++ toString (i + 2)) =
        some (n - 2) := by
    refine List.find?_range_eq_some.mpr ⟨?_, List.mem_range.mpr (by omega), fun j hj => ?_⟩
    · rw [Function.comp_apply, Nat.sub_add_cancel htwo, isFree_iff]
      exact hfree
    · rw [Function.comp_apply, Bool.not_eq_true', ← Bool.not_eq_true, isFree_iff]
      intro hj'
      have hle := hleast ⟨by omega, hj'⟩
      omega
  rw [freeName, if_neg fun h => hbase ((c.isFree_iff taken).mp h), List.find?_map, hfind, Option.map_some,
    Option.getD_some, Nat.sub_add_cancel htwo]

variable (c taken base)

/-- The name found is free, and it is the base or the base with a number. -/
theorem freeName_spec :
    (c.freeName taken base ∉ c.names ∧ c.freeName taken base ≠ taken) ∧
      (c.freeName taken base = base ∨ ∃ n : Nat, c.freeName taken base = base ++ toString n) := by
  by_cases hbase : c.IsFree taken base
  · rw [freeName_of_isFree hbase]
    exact ⟨hbase, .inl rfl⟩
  · obtain ⟨n, hn, hlt⟩ := c.exists_isLeast_freeNumbers taken base
    rw [freeName_of_isLeast hbase hn hlt]
    exact ⟨hn.1.2, .inr ⟨n, rfl⟩⟩

theorem freeName_not_mem : c.freeName taken base ∉ c.names := (c.freeName_spec taken base).1.1

/-- A free name has the stem of the base name it was made from. -/
theorem stemLength_freeName :
    Text.stemLength (c.freeName taken base) = Text.stemLength base := by
  obtain h | ⟨n, h⟩ := (c.freeName_spec taken base).2
  · rw [h]
  · rw [h, Text.stemLength_numbered]

/-- The base with the first number from `n` on that makes it free, as it is found by counting up. The numbers have four
bytes and a sign, and at every step there must be a next one, so the search fails when they run out. -/
def counted? (n : Nat) : Option String :=
  if n + 1 < 2 ^ 31 then
    if c.IsFree taken (base ++ toString n) then some (base ++ toString n) else counted? (n + 1)
  else none
termination_by 2 ^ 31 - n

variable {c taken base}

/-- Counting goes on until it comes to the least number. -/
theorem counted?_of_le {start : Nat} (hle : start ≤ n) (hn : IsLeast (c.freeNumbers taken base) n)
    (htwo : 2 ≤ start) (hbound : n + 1 < 2 ^ 31) :
    c.counted? taken base start = some (base ++ toString n) := by
  induction hle using Nat.decreasingInduction with
  | self => rw [counted?, if_pos hbound, if_pos hn.1.2]
  | of_succ m hlt ih =>
    have hused : ¬ c.IsFree taken (base ++ toString m) := fun hfree =>
      absurd (hn.2 ⟨htwo, hfree⟩) (by omega)
    rw [counted?, if_pos (by omega), if_neg hused]
    exact ih (by omega)

/-- The name found is free. It is the base when that is free; otherwise counting up from two ends at the least number
that makes the base free, long before the numbers run out, and the name is the base with that number. -/
theorem freeName_first (c : Class) (taken base : String) (hlength : c.methods.length < 2 ^ 30) :
    c.IsFree taken (c.freeName taken base) ∧
      (c.IsFree taken base → c.freeName taken base = base) ∧
      (¬ c.IsFree taken base →
        ∃ n, IsLeast {n | 2 ≤ n ∧ c.IsFree taken (base ++ toString n)} n ∧
          c.counted? taken base 2 = some (base ++ toString n) ∧
          c.freeName taken base = base ++ toString n) := by
  obtain ⟨n, hn, hlt⟩ := c.exists_isLeast_freeNumbers taken base
  refine ⟨(c.freeName_spec taken base).1, freeName_of_isFree, fun hbase => ⟨n, hn, ?_, ?_⟩⟩
  · exact counted?_of_le hn.1.1 hn (Nat.le_refl 2) (by omega)
  · exact freeName_of_isLeast hbase hn hlt

/-- Names that bear numbers already, in no order and one of them twice. -/
def crowdedClass : Class where
  name := "Dictionary1"
  methods := ["Item22", "Item3", "Item2", "Item", "Item2"].map fun name => { name }

theorem freeName_first_crowdedClass :
    crowdedClass.methods.length < 2 ^ 30 ∧
      ¬ crowdedClass.IsFree "Item4" "Item" ∧
      (∃ n, IsLeast {n | 2 ≤ n ∧ crowdedClass.IsFree "Item4" ("Item" ++ toString n)} n ∧
        crowdedClass.counted? "Item4" "Item" 2 = some ("Item" ++ toString n) ∧
        crowdedClass.freeName "Item4" "Item" = "Item" ++ toString n) ∧
      crowdedClass.freeName "Item4" "Item" = "Item5" := by
  have hlength : crowdedClass.methods.length < 2 ^ 30 := by decide
  have hbase : ¬ crowdedClass.IsFree "Item4" "Item" := by decide +kernel
  exact ⟨hlength, hbase, (freeName_first crowdedClass "Item4" "Item" hlength).2.2 hbase, by decide +kernel⟩

end Class

end ResourceCode

import ResourceCode.Value

/-!
Everything that can be met from a value on. Reads may give new copies every time, but when copies are not told
apart there are no more values than those in the heap, those in the value itself, and null.
-/

namespace ResourceCode

namespace Value

mutual

/-- With nothing said about copies. -/
def bare : Value → Value
  | .object o => .object { o with copy := none }
  | .list items => .list (bareAll items)
  | v => v

def bareAll : List Value → List Value
  | [] => []
  | v :: rest => v.bare :: bareAll rest

end

theorem bareAll_eq_map (items : List Value) : bareAll items = items.map bare := by
  induction items with
  | nil => rfl
  | cons v rest ih => simp [bareAll, ih]

mutual

/-- A copy differs from the original in nothing but being a copy. -/
theorem bare_copied (n : Nat) (v : Value) : (v.copied n).bare = v.bare := by
  cases v with
  | list items => simp only [copied, bare, bareAll_copiedAll n items]
  | _ => rfl

theorem bareAll_copiedAll (n : Nat) (items : List Value) :
    bareAll (copiedAll n items) = bareAll items := by
  cases items with
  | nil => rfl
  | cons v rest => simp only [copiedAll, bareAll, bare_copied n v, bareAll_copiedAll n rest]

end

mutual

theorem size_bare (v : Value) : v.bare.size = v.size := by
  cases v with
  | list items => simp only [bare, size, sizeAll_bareAll items]
  | _ => rfl

theorem sizeAll_bareAll (items : List Value) : sizeAll (bareAll items) = sizeAll items := by
  cases items with
  | nil => rfl
  | cons v rest => simp only [bareAll, sizeAll, size_bare v, sizeAll_bareAll rest]

end

theorem one_le_size (v : Value) : 1 ≤ v.size := by
  cases v <;> simp [size]

/-- No item is larger than all items together. -/
theorem size_le_sizeAll {items : List Value} {x : Value} (h : x ∈ items) :
    x.size ≤ sizeAll items := by
  induction items with
  | nil => cases h
  | cons v rest ih =>
    rw [sizeAll]
    rcases List.mem_cons.mp h with rfl | h
    · exact Nat.le_add_right ..
    · exact Nat.le_trans (ih h) (Nat.le_add_left ..)

end Value

theorem Value.object_of_bare {o o' : Object}
    (h : (Value.object o).bare = (Value.object o').bare) : o.cell = o'.cell ∧ o.type = o'.type := by
  simpa [bare] using h

namespace Heap

variable {heap : Heap} {o : Object} {property : String} {x y : Value}

/-- A successful read gives what is in the cell, as it is or as a copy. -/
theorem exists_get (heap : Heap) (h : (heap.cell o).read o.type property = .ok x) (reading : Nat) :
    ∃ y, heap.get o property reading = .ok y ∧ (y = x ∨ ∃ n, y = x.copied n) := by
  simp only [get, h, Except.map]
  generalize (if (heap.cell o).live = true then some reading else o.copy) = copy
  cases copy with
  | some n => exact ⟨x.copied n, rfl, .inr ⟨n, rfl⟩⟩
  | none => exact ⟨x, rfl, .inl rfl⟩

/-- What a read gives is what the cell holds, or a copy of it. -/
theorem read_of_get {reading : Nat} (h : heap.get o property reading = .ok y) :
    ∃ x, (heap.cell o).read o.type property = .ok x ∧ y.bare = x.bare := by
  cases hread : (heap.cell o).read o.type property with
  | error e =>
    rw [get, hread] at h
    cases h
  | ok x =>
    obtain ⟨y', hget, hy⟩ := heap.exists_get hread reading
    obtain rfl := Except.ok.inj (h.symm.trans hget)
    refine ⟨x, rfl, ?_⟩
    obtain rfl | ⟨n, rfl⟩ := hy
    · rfl
    · exact x.bare_copied n

end Heap

namespace Value

mutual

/-- A value and the values in it. -/
def within : Value → List Value
  | .list items => .list items :: withinAll items
  | v => [v]

def withinAll : List Value → List Value
  | [] => []
  | v :: rest => v.within ++ withinAll rest

end

mutual

/-- There are as many values within a value as its size says. -/
theorem length_within (v : Value) : v.within.length = v.size := by
  cases v with
  | list items => simp only [within, size, List.length_cons, length_withinAll items, Nat.add_comm]
  | _ => rfl

theorem length_withinAll (items : List Value) : (withinAll items).length = sizeAll items := by
  cases items with
  | nil => rfl
  | cons v rest =>
    simp only [withinAll, sizeAll, List.length_append, length_within v, length_withinAll rest]

end

theorem mem_within_self (v : Value) : v ∈ v.within := by
  cases v <;> simp [within]

theorem within_subset_withinAll {items : List Value} {x y : Value} (hx : x ∈ items)
    (hy : y ∈ x.within) : y ∈ withinAll items := by
  induction items with
  | nil => cases hx
  | cons v rest ih =>
    rw [withinAll, List.mem_append]
    rcases List.mem_cons.mp hx with rfl | hx
    · exact .inl hy
    · exact .inr (ih hx)

mutual

/-- The items of a list within a value are within the value. -/
theorem mem_within_of_item {items : List Value} {x : Value} (hx : x ∈ items) (v : Value)
    (h : .list items ∈ v.within) : x ∈ v.within := by
  cases v with
  | list others =>
    rw [within, List.mem_cons] at h ⊢
    rcases h with h | h
    · cases h
      exact .inr (within_subset_withinAll hx x.mem_within_self)
    · exact .inr (mem_withinAll_of_item hx others h)
  | _ => simp [within] at h

theorem mem_withinAll_of_item {items : List Value} {x : Value} (hx : x ∈ items)
    (others : List Value) (h : .list items ∈ withinAll others) : x ∈ withinAll others := by
  cases others with
  | nil => cases h
  | cons v rest =>
    rw [withinAll, List.mem_append] at h ⊢
    rcases h with h | h
    · exact .inl (mem_within_of_item hx v h)
    · exact .inr (mem_withinAll_of_item hx rest h)

end

mutual

/-- What is within a value is no larger than it. -/
theorem size_le_of_mem_within {x : Value} (v : Value) (h : x ∈ v.within) : x.size ≤ v.size := by
  cases v with
  | list items =>
    rw [within, List.mem_cons] at h
    rcases h with rfl | h
    · exact Nat.le_refl _
    · have hle := size_le_of_mem_withinAll items h
      rw [size]
      omega
  | _ => exact List.mem_singleton.mp h ▸ Nat.le_refl _

theorem size_le_of_mem_withinAll {x : Value} (items : List Value) (h : x ∈ withinAll items) :
    x.size ≤ sizeAll items := by
  cases items with
  | nil => cases h
  | cons v rest =>
    rw [withinAll, List.mem_append] at h
    rw [sizeAll]
    rcases h with h | h
    · exact Nat.le_trans (size_le_of_mem_within v h) (Nat.le_add_right ..)
    · exact Nat.le_trans (size_le_of_mem_withinAll rest h) (Nat.le_add_left ..)

end

end Value

namespace Cell

def within (c : Cell) : List Value := c.values.flatMap fun entry => entry.2.within

theorem length_within (c : Cell) :
    c.within.length = Value.sizeAll (c.values.map (·.2)) := by
  have hlength (values : List (String × Value)) :
      (values.flatMap fun entry => entry.2.within).length = Value.sizeAll (values.map (·.2)) := by
    induction values with
    | nil => rfl
    | cons entry rest ih =>
      simp only [List.flatMap_cons, List.length_append, Value.length_within, ih, List.map_cons,
        Value.sizeAll]
  exact hlength c.values

/-- What is read from a cell is null or stands in it. -/
theorem read_cases {c : Cell} {type : Descriptor} {property : String} {x : Value}
    (h : c.read type property = .ok x) : x = .null ∨ x ∈ c.within := by
  unfold read at h
  split at h
  · cases h
  · rename_i hvalue
    cases h
    obtain ⟨before, after, heq, -⟩ := List.lookup_eq_some_iff.mp hvalue
    have hmem : (property, x) ∈ c.values := by
      rw [← List.mem_reverse, heq]
      simp
    exact .inr (List.mem_flatMap.mpr ⟨_, hmem, x.mem_within_self⟩)
  · split at h
    · cases h
      exact .inl rfl
    · cases h

end Cell

namespace Heap

/-- Everything that can be met from a value on, when copies are not told apart. -/
def pool (heap : Heap) (root : Value) : List Value :=
  (.null :: (root.within ++ heap.cells.toList.flatMap Cell.within)).map Value.bare

variable {heap : Heap} {root x : Value}

/-- The pool is finite: it has no more values than the heap and the root have. -/
theorem length_pool (heap : Heap) (root : Value) :
    (heap.pool root).length ≤ heap.size + root.size + 1 := by
  have hcells (cells : List Cell) : (cells.flatMap Cell.within).length ≤
      cells.foldr (fun c n => 1 + Value.sizeAll (c.values.map (·.2)) + n) 0 := by
    induction cells with
    | nil => simp
    | cons c rest ih =>
      simp only [List.flatMap_cons, List.length_append, Cell.length_within, List.foldr_cons]
      omega
  have hle := hcells heap.cells.toList
  simp only [pool, List.length_map, List.length_cons, List.length_append, Value.length_within, size]
  omega

/-- The root is in the pool. -/
theorem root_mem_pool (heap : Heap) (root : Value) : root.bare ∈ heap.pool root := by
  refine List.mem_map_of_mem (List.mem_cons_of_mem _ (List.mem_append_left _ ?_))
  exact root.mem_within_self

/-- With a list its items are in the pool. -/
theorem item_mem_pool {items : List Value} (h : (Value.list items).bare ∈ heap.pool root)
    (hx : x ∈ items) : x.bare ∈ heap.pool root := by
  obtain ⟨y, hy, hbare⟩ := List.mem_map.mp h
  cases y with
  | list others =>
    simp only [Value.bare, Value.bareAll_eq_map, Value.list.injEq] at hbare
    have hmem : x.bare ∈ others.map Value.bare := hbare ▸ List.mem_map_of_mem hx
    obtain ⟨z, hz, hzx⟩ := List.mem_map.mp hmem
    rw [← hzx]
    refine List.mem_map_of_mem ?_
    rcases List.mem_cons.mp hy with hy | hy
    · cases hy
    · refine List.mem_cons_of_mem _ ?_
      rcases List.mem_append.mp hy with hy | hy
      · exact List.mem_append_left _ (Value.mem_within_of_item hz root hy)
      · obtain ⟨c, hc, hyc⟩ := List.mem_flatMap.mp hy
        obtain ⟨entry, he, hye⟩ := List.mem_flatMap.mp hyc
        have hzc : z ∈ c.within :=
          List.mem_flatMap.mpr ⟨entry, he, Value.mem_within_of_item hz entry.2 hye⟩
        exact List.mem_append_right _ (List.mem_flatMap.mpr ⟨c, hc, hzc⟩)
  | _ => cases hbare

/-- All that the cells of the heap hold is in the pool. -/
theorem read_mem_pool {o : Object} {property : String}
    (h : (heap.cell o).read o.type property = .ok x) : x.bare ∈ heap.pool root := by
  refine List.mem_map_of_mem ?_
  rcases Cell.read_cases h with rfl | hx
  · exact List.mem_cons_self
  · refine List.mem_cons_of_mem _ (List.mem_append_right _ ?_)
    cases hc : heap.cells[o.cell]? with
    | none => simp [cell, hc, Cell.within] at hx
    | some c =>
      simp only [cell, hc, Option.getD_some] at hx
      exact List.mem_flatMap.mpr ⟨c, Array.mem_toList_iff.mpr (Array.mem_of_getElem? hc), hx⟩

/-- No value that can be met is larger than the heap and the value at the root together. -/
theorem size_le_of_mem_pool (h : x.bare ∈ heap.pool root) : x.size ≤ heap.size + root.size + 1 := by
  have hsum (cells : List Cell) {c : Cell} (hc : c ∈ cells) :
      Value.sizeAll (c.values.map (·.2)) ≤
        cells.foldr (fun c n => 1 + Value.sizeAll (c.values.map (·.2)) + n) 0 := by
    induction cells with
    | nil => cases hc
    | cons d rest ih =>
      rw [List.foldr_cons]
      rcases List.mem_cons.mp hc with rfl | hc
      · omega
      · exact Nat.le_trans (ih hc) (Nat.le_add_left ..)
  obtain ⟨y, hy, hbare⟩ := List.mem_map.mp h
  rw [← x.size_bare, ← hbare, y.size_bare]
  rcases List.mem_cons.mp hy with rfl | hy
  · exact Nat.le_add_left ..
  rcases List.mem_append.mp hy with hy | hy
  · have hle := Value.size_le_of_mem_within root hy
    omega
  · obtain ⟨c, hc, hyc⟩ := List.mem_flatMap.mp hy
    obtain ⟨entry, he, hye⟩ := List.mem_flatMap.mp hyc
    have hentry := Value.size_le_of_mem_within entry.2 hye
    have hcell := Value.size_le_sizeAll (List.mem_map_of_mem (f := (·.2)) he)
    have hheap := hsum heap.cells.toList hc
    rw [← size] at hheap
    omega

end Heap

end ResourceCode

import TracingHeap.Table

namespace TracingHeap

namespace Object

@[simp] theorem owner_set (o : Object) (f : Flag) : (o.set f).owner = o.owner := rfl

@[simp] theorem owner_clear (o : Object) (f : Flag) : (o.clear f).owner = o.owner := rfl

@[simp] theorem owner_setOwner (o : Object) (r : Option Handle) : (o.setOwner r).owner = r := rfl

@[simp] theorem has_setOwner (o : Object) (r : Option Handle) (f : Flag) :
    (o.setOwner r).has f = o.has f := rfl

@[simp] theorem has_set (o : Object) (f g : Flag) :
    (o.set f).has g = (o.has g || decide (f = g)) := by
  simp [Object.has, Object.set]

@[simp] theorem has_clear (o : Object) (f g : Flag) :
    (o.clear f).has g = (o.has g && !decide (f = g)) := by
  simp [Object.has, Object.clear]

end Object

namespace Table

variable {t : Table} {g h : Handle} {o : Object}

theorem get?_modify (t : Table) (h g : Handle) (f : Object → Object) :
    (t.modify h f).get? g = if g = h then (t.get? g).map f else t.get? g := by
  by_cases e : g = h
  · subst e
    simp only [get?, slot?, modify, Array.getElem?_modify, if_true]
    cases t.slots[g.index]? <;> rfl
  · have hne : h.index ≠ g.index := fun he => e (Handle.ext_index he.symm)
    simp [get?, slot?, modify, Array.getElem?_modify, hne, e]

theorem get?_modify_self (t : Table) (h : Handle) (f : Object → Object) :
    (t.modify h f).get? h = (t.get? h).map f := by
  simp [get?_modify]

theorem get?_modify_of_ne (t : Table) {g h : Handle} (e : g ≠ h) (f : Object → Object) :
    (t.modify h f).get? g = t.get? g := by
  simp [get?_modify, e]

theorem contains_iff : t.contains h = true ↔ ∃ o, t.get? h = some o := by
  simp [contains, Option.isSome_iff_exists]

theorem contains_setFlag (t : Table) (h g : Handle) (f : Flag) :
    (t.setFlag h f).contains g = t.contains g := by
  unfold contains
  rw [setFlag, get?_modify]
  split
  · cases t.get? g <;> rfl
  · rfl

theorem isUnreachable_of_get? (hg : t.get? h = some o) : t.isUnreachable h = o.isUnreachable := by
  simp [isUnreachable, has, hg, Object.isUnreachable]

theorem has_of_get? (hg : t.get? h = some o) (f : Flag) : t.has h f = o.has f := by
  simp [has, hg]

@[simp] theorem boundary_modify (t : Table) (h : Handle) (f : Object → Object) :
    (t.modify h f).boundary = t.boundary := rfl

@[simp] theorem isPermanent_modify (t : Table) (h g : Handle) (f : Object → Object) :
    (t.modify h f).isPermanent g = t.isPermanent g := rfl

@[simp] theorem size_modify (t : Table) (h : Handle) (f : Object → Object) :
    (t.modify h f).slots.size = t.slots.size := by
  simp [modify]

theorem index_lt_size (hg : t.get? h = some o) : h.index < t.slots.size := by
  simp only [get?, slot?] at hg
  cases hs : t.slots[h.index]? with
  | none => simp [hs] at hg
  | some x => exact (Array.getElem?_eq_some_iff.mp hs).1

theorem get?_empty (h : Handle) : empty.get? h = none := by
  cases ho : empty.get? h with
  | none => rfl
  | some o =>
    have hlt := index_lt_size ho
    have hpos := h.pos
    simp [empty] at hlt
    omega

/-- Every object lies where its handle says, freed slots are empty slots of the table, and the last
slot that has a number lies outside the permanent pool. -/
structure Tidy (t : Table) : Prop where
  placed : ∀ i o, t.slot? i = some o → o.handle.index = i
  room : ∀ h ∈ t.free, h.index < t.slots.size
  vacant : ∀ h ∈ t.free, t.get? h = none
  distinct : t.free.Nodup
  bounded : t.boundary ≤ 4294967295

theorem Tidy.handle_eq (ht : t.Tidy) (hg : t.get? h = some o) : o.handle = h :=
  Handle.ext_index (ht.placed _ _ hg)

theorem Tidy.empty : Table.empty.Tidy := by
  refine ⟨?_, by simp [Table.empty], by simp [Table.empty], by simp [Table.empty], by decide⟩
  intro i o ho
  cases i with
  | zero => simp [Table.empty, slot?] at ho
  | succ i => simp [Table.empty, slot?] at ho

theorem slot?_modify (t : Table) (h : Handle) (f : Object → Object) (i : Nat) :
    (t.modify h f).slot? i = if i = h.index then (t.slot? i).map f else t.slot? i := by
  by_cases e : i = h.index
  · subst e
    simp only [slot?, modify, Array.getElem?_modify, if_true]
    cases t.slots[h.index]? <;> rfl
  · simp [slot?, modify, Array.getElem?_modify, Ne.symm e, e]

/-- A change that leaves the handles of objects alone leaves the table tidy. -/
theorem Tidy.modify (ht : t.Tidy) (f : Object → Object) (hf : ∀ o, (f o).handle = o.handle) :
    (t.modify h f).Tidy := by
  refine ⟨?_, ?_, ?_, ht.distinct, ht.bounded⟩
  · intro i o ho
    rw [slot?_modify] at ho
    split at ho
    · obtain ⟨p, hp, rfl⟩ := Option.map_eq_some_iff.mp ho
      rw [hf]
      exact ht.placed i p hp
    · exact ht.placed i o ho
  · intro g hg
    rw [size_modify]
    exact ht.room g hg
  · intro g hg
    rw [get?_modify, ht.vacant g hg]
    simp

theorem Tidy.setFlag (ht : t.Tidy) (h : Handle) (f : Flag) : (t.setFlag h f).Tidy :=
  ht.modify (·.set f) fun _ => rfl

theorem Tidy.clearFlag (ht : t.Tidy) (h : Handle) (f : Flag) : (t.clearFlag h f).Tidy :=
  ht.modify (·.clear f) fun _ => rfl

theorem release_permanent (hp : t.isPermanent h = true) : t.release h = t := by
  rw [release, if_pos hp]

theorem release_vacant (ho : t.get? h = none) : t.release h = t := by
  unfold release
  split
  · rfl
  · rw [if_neg (by simp [contains, ho])]

theorem release_eq (ho : t.get? h = some o) (hp : t.isPermanent h = false) :
    t.release h = { t with
      slots := t.slots.setIfInBounds h.index none, free := h :: t.free, live := t.live - 1 } := by
  rw [release, if_neg (by simp [hp]), if_pos (contains_iff.mpr ⟨o, ho⟩)]

theorem free_release (ho : t.get? h = some o) (hp : t.isPermanent h = false) :
    (t.release h).free = h :: t.free := by
  rw [release_eq ho hp]

theorem slot?_release (t : Table) (h : Handle) (i : Nat) : (t.release h).slot? i =
    if i = h.index ∧ t.isPermanent h = false then none else t.slot? i := by
  cases hp : t.isPermanent h with
  | true =>
    rw [release_permanent hp]
    simp
  | false =>
    cases ho : t.get? h with
    | none =>
      rw [release_vacant ho]
      split
      · rename_i hi
        rw [hi.1]
        exact ho
      · rfl
    | some o =>
      rw [release_eq ho hp]
      change (t.slots.setIfInBounds h.index none)[i]?.join = _
      rw [Array.getElem?_setIfInBounds]
      by_cases he : i = h.index
      · simp [he, index_lt_size ho]
      · simp [he, Ne.symm he, slot?]

theorem get?_release (t : Table) (h g : Handle) : (t.release h).get? g =
    if g = h ∧ t.isPermanent h = false then none else t.get? g := by
  rw [get?, slot?_release, get?]
  by_cases he : g = h
  · simp [he]
  · have hi : g.index ≠ h.index := fun hi => he (Handle.ext_index hi)
    simp [he, hi]

@[simp] theorem boundary_release (t : Table) (h : Handle) : (t.release h).boundary = t.boundary := by
  unfold release
  split
  · rfl
  · split <;> rfl

@[simp] theorem capacity_release (t : Table) (h : Handle) : (t.release h).capacity = t.capacity := by
  unfold release
  split
  · rfl
  · split
    · exact Array.size_setIfInBounds
    · rfl

/-- A slot that was emptied is one that may be used again. -/
theorem Tidy.release (ht : t.Tidy) (h : Handle) : (t.release h).Tidy := by
  cases hp : t.isPermanent h with
  | true => rwa [release_permanent hp]
  | false =>
    cases ho : t.get? h with
    | none => rwa [release_vacant ho]
    | some o =>
      have hfree := free_release ho hp
      refine ⟨fun i p hi => ?_, fun g hg => ?_, fun g hg => ?_, ?_, ?_⟩
      · rw [slot?_release] at hi
        split at hi
        · cases hi
        · exact ht.placed i p hi
      · change g.index < (t.release h).capacity
        rw [capacity_release]
        rw [hfree] at hg
        rcases List.mem_cons.mp hg with rfl | hg
        · exact index_lt_size ho
        · exact ht.room g hg
      · rw [get?_release]
        split
        · rfl
        · rename_i hne
          rw [hfree] at hg
          exact ht.vacant g ((List.mem_cons.mp hg).resolve_left fun he => hne ⟨he, hp⟩)
      · rw [hfree]
        refine List.nodup_cons.mpr ⟨fun hm => ?_, ht.distinct⟩
        rw [ht.vacant h hm] at ho
        cases ho
      · rw [boundary_release]
        exact ht.bounded

/-- A slot of a tidy table, as an entry of the list of slots. -/
theorem Tidy.getElem?_toList (ht : t.Tidy) {i : Nat} :
    t.slots.toList[i]? = some (some o) ↔ t.get? o.handle = some o ∧ o.handle.index = i := by
  have hslot : t.slots.toList[i]? = some (some o) ↔ t.slot? i = some o := by
    rw [Array.getElem?_toList, slot?]
    cases t.slots[i]? <;> simp
  rw [hslot]
  constructor
  · intro hs
    have hp := ht.placed i o hs
    exact ⟨by rw [get?, hp]; exact hs, hp⟩
  · intro hg
    rw [← hg.2]
    exact hg.1

/-- The objects outside the permanent pool, each found under its handle. -/
theorem Tidy.mem_collectable (ht : t.Tidy) :
    o ∈ t.collectable ↔ t.get? o.handle = some o ∧ t.isPermanent o.handle = false := by
  simp only [collectable, List.mem_filterMap, id_eq, exists_eq_right, isPermanent,
    decide_eq_false_iff_not]
  rw [List.mem_iff_getElem?]
  simp only [List.getElem?_drop, ht.getElem?_toList]
  constructor
  · intro hm
    obtain ⟨i, hg, hi⟩ := hm
    exact ⟨hg, by omega⟩
  · intro hm
    obtain ⟨hg, hb⟩ := hm
    exact ⟨o.handle.index - t.boundary, hg, by omega⟩

/-- The objects of the permanent pool, each found under its handle. -/
theorem Tidy.mem_permanent (ht : t.Tidy) :
    o ∈ t.permanent ↔ t.get? o.handle = some o ∧ t.isPermanent o.handle = true := by
  simp only [permanent, List.mem_filterMap, id_eq, exists_eq_right, isPermanent, decide_eq_true_eq]
  rw [List.mem_iff_getElem?]
  constructor
  · intro hm
    obtain ⟨i, hi⟩ := hm
    rw [List.getElem?_take] at hi
    split at hi
    · rename_i hlt
      obtain ⟨hg, hp⟩ := ht.getElem?_toList.mp hi
      exact ⟨hg, hp ▸ hlt⟩
    · cases hi
  · intro hm
    obtain ⟨hg, hb⟩ := hm
    refine ⟨o.handle.index, ?_⟩
    rw [List.getElem?_take, if_pos hb]
    exact ht.getElem?_toList.mpr ⟨hg, rfl⟩

end Table

end TracingHeap

import TracingHeap.Object

namespace TracingHeap

namespace Cell

theorem slot?_clear (c : Cell) (p q : Place) :
    (c.clear p).slot? q = if q = p then (c.slot? q).map fun _ => none else c.slot? q := by
  induction p generalizing c q with
  | here => cases c <;> cases q <;> simp [clear, slot?]
  | item i =>
    cases c <;> cases q <;> simp [clear, slot?, Array.getElem?_setIfInBounds]
    rename_i ss j
    by_cases h : i = j
    · subst h
      by_cases hb : i < ss.size <;> simp [hb]
    · simp [h, Ne.symm h]
  | strongItem i =>
    cases c with
    | container d =>
      cases d <;> cases q <;> simp [clear, slot?, Array.getElem?_setIfInBounds]
      rename_i ss ws j
      by_cases h : i = j
      · subst h
        by_cases hb : i < ss.size <;> simp [hb]
      · simp [h, Ne.symm h]
    | _ => cases q <;> simp [clear, slot?]
  | weakItem i =>
    cases c with
    | container d =>
      cases d <;> cases q <;> simp [clear, slot?, Array.getElem?_setIfInBounds]
      rename_i ss ws j
      by_cases h : i = j
      · subst h
        by_cases hb : i < ws.size <;> simp [hb]
      · simp [h, Ne.symm h]
    | _ => cases q <;> simp [clear, slot?]
  | element i offset rest ih =>
    cases c with
    | structs es =>
      cases q with
      | element j offset' rest' =>
        simp only [clear, slot?, Array.getElem?_modify, Place.element.injEq]
        by_cases hi : i = j
        · subst hi
          simp only [if_true, true_and]
          cases hrow : es[i]? with
          | none => simp
          | some row =>
            simp only [Option.map_some, Array.getElem?_modify]
            by_cases ho : offset = offset'
            · subst ho
              simp only [if_true, true_and]
              cases hd : row[offset]? with
              | none => simp
              | some d => simp [ih]
            · simp [ho, Ne.symm ho]
        · simp [hi, Ne.symm hi]
      | _ => simp [clear, slot?]
    | _ => cases q <;> simp [clear, slot?]

theorem slotAt?_clearAt (cells : Array Cell) (a b : Address) :
    slotAt? (clearAt cells a) b =
      if b = a then (slotAt? cells b).map fun _ => none else slotAt? cells b := by
  obtain ⟨i, p⟩ := a
  obtain ⟨j, q⟩ := b
  simp only [slotAt?, clearAt, Array.getElem?_modify, Address.mk.injEq]
  by_cases h : i = j
  · subst h
    cases hc : cells[i]? with
    | none => simp
    | some c => simp [slot?_clear]
  · simp [h, Ne.symm h]

/-- Entries of a list of slots are emptied in any order. -/
theorem setIfInBounds_none_comm (ss : Array Slot) (i j : Nat) :
    (ss.setIfInBounds i none).setIfInBounds j none =
      (ss.setIfInBounds j none).setIfInBounds i none := by
  by_cases h : i = j
  · simp [h]
  · exact Array.setIfInBounds_comm _ _ h

/-- Emptying an entry that holds no reference changes nothing. -/
theorem setIfInBounds_none_eq_self {ss : Array Slot} {i : Nat}
    (h : ∀ g, ss[i]? ≠ some (some g)) : ss.setIfInBounds i none = ss := by
  apply Array.ext_getElem?
  intro j
  rw [Array.getElem?_setIfInBounds]
  by_cases he : i = j
  · subst he
    cases hs : ss[i]? with
    | none => simp [Array.getElem?_eq_none_iff.mp hs]
    | some s =>
      cases s with
      | none => simp [(Array.getElem?_eq_some_iff.mp hs).1]
      | some g => exact absurd hs (h g)
  · simp [he]

/-- Places are emptied in any order. -/
theorem clear_comm (c : Cell) (p q : Place) : (c.clear p).clear q = (c.clear q).clear p := by
  induction p generalizing c q with
  | here | item | strongItem | weakItem =>
    cases c with
    | container d => cases d <;> cases q <;> simp [clear, setIfInBounds_none_comm]
    | _ => cases q <;> simp [clear, setIfInBounds_none_comm]
  | element i offset rest ih =>
    cases c with
    | structs es =>
      cases q with
      | element j offset' rest' =>
        simp only [clear, structs.injEq]
        apply Array.ext_getElem?
        intro k
        simp only [Array.getElem?_modify]
        by_cases hi : i = k
        · by_cases hj : j = k
          · simp only [hi, hj, if_true, Option.map_map]
            congr 1
            funext row
            apply Array.ext_getElem?
            intro l
            simp only [Function.comp_apply, Array.getElem?_modify]
            by_cases h1 : offset = l
            · by_cases h2 : offset' = l
              · simp only [h1, h2, if_true, Option.map_map]
                congr 1
                funext d
                exact ih d rest'
              · simp [h1, h2]
            · simp [h1]
          · simp [hi, hj]
        · simp [hi]
      | _ => simp [clear]
    | container d => cases d <;> cases q <;> simp [clear]
    | _ => cases q <;> simp [clear]

/-- Emptying a place that holds no reference changes nothing. -/
theorem clear_eq_self {c : Cell} {p : Place} (h : ∀ g, c.slot? p ≠ some (some g)) :
    c.clear p = c := by
  induction p generalizing c with
  | here =>
    cases c with
    | ref s => cases s <;> simp_all [clear, slot?]
    | _ => rfl
  | item i =>
    cases c with
    | refs ss => exact congrArg refs (setIfInBounds_none_eq_self h)
    | _ => rfl
  | strongItem i =>
    cases c with
    | container d =>
      cases d with
      | bag ss ws => exact congrArg (container <| .bag · ws) (setIfInBounds_none_eq_self h)
      | sealed => rfl
    | _ => rfl
  | weakItem i =>
    cases c with
    | container d =>
      cases d with
      | bag ss ws => exact congrArg (container <| .bag ss ·) (setIfInBounds_none_eq_self h)
      | sealed => rfl
    | _ => rfl
  | element i offset rest ih =>
    cases c with
    | structs es =>
      simp only [clear, slot?, structs.injEq] at h ⊢
      apply Array.ext_getElem?
      intro j
      rw [Array.getElem?_modify]
      by_cases he : i = j
      · subst he
        cases hrow : es[i]? with
        | none => simp
        | some row =>
          simp only [hrow] at h
          simp only [if_true, Option.map_some, Option.some.injEq]
          apply Array.ext_getElem?
          intro k
          rw [Array.getElem?_modify]
          by_cases hk : offset = k
          · subst hk
            cases hd : row[offset]? with
            | none => simp
            | some d =>
              simp only [hd] at h
              simp [ih h]
          · simp [hk]
      · simp [he]
    | _ => rfl

theorem clearAt_comm (cells : Array Cell) (a b : Address) :
    clearAt (clearAt cells a) b = clearAt (clearAt cells b) a := by
  apply Array.ext_getElem?
  intro i
  simp only [clearAt, Array.getElem?_modify]
  by_cases ha : a.offset = i
  · by_cases hb : b.offset = i
    · simp only [ha, hb, if_true, Option.map_map]
      congr 1
      funext c
      exact clear_comm c a.place b.place
    · simp [ha, hb]
  · simp [ha]

theorem clearAt_eq_self {cells : Array Cell} {a : Address}
    (h : ∀ g, slotAt? cells a ≠ some (some g)) : clearAt cells a = cells := by
  apply Array.ext_getElem?
  intro i
  rw [clearAt, Array.getElem?_modify]
  by_cases ha : a.offset = i
  · subst ha
    cases hc : cells[a.offset]? with
    | none => simp
    | some c =>
      simp only [slotAt?, hc] at h
      simp [clear_eq_self h]
  · simp [ha]

def clearAll (cells : Array Cell) (as : List Address) : Array Cell := as.foldl clearAt cells

theorem slotAt?_clearAll (as : List Address) (b : Address) : ∀ cells, slotAt? (clearAll cells as) b =
    if b ∈ as then (slotAt? cells b).map fun _ => none else slotAt? cells b := by
  induction as with
  | nil =>
    intro cells
    rfl
  | cons a rest ih =>
    intro cells
    rw [clearAll, List.foldl_cons, ← clearAll, ih, slotAt?_clearAt]
    by_cases hb : b = a
    · subst hb
      cases slotAt? cells b <;> simp
    · simp [hb]

theorem clearAt_clearAll (as : List Address) (a : Address) : ∀ cells,
    clearAll (clearAt cells a) as = clearAt (clearAll cells as) a := by
  induction as with
  | nil =>
    intro cells
    rfl
  | cons b rest ih =>
    intro cells
    rw [clearAll, List.foldl_cons, clearAt_comm, ← clearAll, ih]
    rfl

theorem clearAll_comm (as bs : List Address) : ∀ cells,
    clearAll (clearAll cells as) bs = clearAll (clearAll cells bs) as := by
  induction as with
  | nil =>
    intro cells
    rfl
  | cons a rest ih =>
    intro cells
    change clearAll (clearAll (clearAt cells a) rest) bs = clearAll (clearAt (clearAll cells bs) a) rest
    rw [ih, clearAt_clearAll]

theorem clearAll_eq_self {as : List Address} {cells : Array Cell}
    (h : ∀ a ∈ as, ∀ g, slotAt? cells a ≠ some (some g)) : clearAll cells as = cells := by
  induction as with
  | nil => rfl
  | cons a rest ih =>
    rw [clearAll, List.foldl_cons, clearAt_eq_self (h a (List.mem_cons_self ..))]
    exact ih fun b hb => h b (List.mem_cons_of_mem _ hb)

/-- An emptied slot holds no reference. -/
theorem slotAt?_clearAll_ne {as : List Address} {a : Address} (ha : a ∈ as) (cells : Array Cell)
    (g : Handle) : slotAt? (clearAll cells as) a ≠ some (some g) := by
  rw [slotAt?_clearAll, if_pos ha]
  cases slotAt? cells a <;> simp

/-- Rows of cells with some of their slots emptied are the same if their slots are. -/
theorem clearAll_ext {cells : Array Cell} {as bs : List Address}
    (h : ∀ a, slotAt? (clearAll cells as) a = slotAt? (clearAll cells bs) a) :
    clearAll cells as = clearAll cells bs := by
  have hbs : clearAll (clearAll cells as) bs = clearAll cells as :=
    clearAll_eq_self fun b hb g => by
      rw [h]
      exact slotAt?_clearAll_ne hb cells g
  have has : clearAll (clearAll cells bs) as = clearAll cells bs :=
    clearAll_eq_self fun a ha g => by
      rw [← h]
      exact slotAt?_clearAll_ne ha cells g
  rw [← hbs, clearAll_comm, has]

/-- A cell that has taken in a target holds nothing new but the target. -/
theorem slot?_hold {c : Cell} {target : Slot} {p : Place} {g : Handle}
    (h : (c.hold target).slot? p = some (some g)) :
    c.slot? p = some (some g) ∨ target = some g := by
  cases c with
  | ref s => cases p <;> simp_all [hold, slot?]
  | refs ss =>
    cases p with
    | item i =>
      simp only [hold, slot?, Array.getElem?_push] at h ⊢
      split at h
      · exact .inr (Option.some.inj h)
      · exact .inl h
    | _ => simp [hold, slot?] at h
  | value n => exact .inl h
  | structs es => exact .inl h
  | container d => exact .inl h

theorem slotAt?_hold {cells : Array Cell} {offset : Nat} {target : Slot} {a : Address}
    {g : Handle} (h : slotAt? (cells.modify offset (·.hold target)) a = some (some g)) :
    slotAt? cells a = some (some g) ∨ target = some g := by
  simp only [slotAt?, Array.getElem?_modify] at h ⊢
  split at h
  · rename_i c hc
    split at hc
    · obtain ⟨d, hd, rfl⟩ := Option.map_eq_some_iff.mp hc
      rw [hd]
      exact slot?_hold h
    · rw [hc]
      exact .inl h
  · cases h

def Blank (c : Cell) : Prop := ∀ p g, c.slot? p ≠ some (some g)

theorem slotAt?_of_blank {cells : Array Cell} (h : ∀ c ∈ cells, c.Blank) (a : Address)
    (g : Handle) : slotAt? cells a ≠ some (some g) := by
  intro hs
  unfold slotAt? at hs
  split at hs
  · rename_i c hc
    exact h c (Array.mem_of_getElem? hc) a.place g hs
  · cases hs

end Cell

namespace Object

theorem slot?_clearSlot (o : Object) (a b : Address) :
    (o.clearSlot a).slot? b = if b = a then (o.slot? b).map fun _ => none else o.slot? b :=
  Cell.slotAt?_clearAt o.cells a b

end Object

end TracingHeap

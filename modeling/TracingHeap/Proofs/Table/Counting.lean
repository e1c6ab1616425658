import TracingHeap.Proofs.Table.Evolution

namespace TracingHeap

namespace Table

variable {t t' : Table} {h : Handle} {o : Object} {R : Handle → Object → Object → Prop}

theorem length_objects (t : Table) : t.objects.length = t.slots.countP (·.isSome) := by
  rw [objects, List.length_filterMap_eq_countP, ← Array.countP_toList]
  rfl

/-- The number of objects, if one slot is filled or emptied. -/
theorem countP_setIfInBounds {i : Nat} (slot : Option Object) (hi : i < t.slots.size) :
    (t.slots.setIfInBounds i slot).countP (·.isSome) + (if (t.slot? i).isSome then 1 else 0) =
      t.slots.countP (·.isSome) + if slot.isSome then 1 else 0 := by
  have hold : t.slot? i = t.slots[i] := by
    rw [slot?, Array.getElem?_eq_getElem hi]
    rfl
  rw [Array.setIfInBounds, dif_pos hi, Array.countP_set, hold]
  split
  · rename_i hsome
    have hpos : 0 < t.slots.countP (·.isSome) :=
      Array.countP_pos_iff.mpr ⟨_, Array.getElem_mem hi, hsome⟩
    omega
  · omega

/-- Tables with objects in the same slots hold the same number of them. -/
theorem length_objects_congr (hsize : t'.slots.size = t.slots.size)
    (hslot : ∀ i, (t'.slot? i).isSome = (t.slot? i).isSome) :
    t'.objects.length = t.objects.length := by
  have hmap : t'.slots.map (·.isSome) = t.slots.map (·.isSome) := by
    refine Array.ext (by simpa using hsize) fun i h1 h2 => ?_
    have hi := hslot i
    rw [Array.size_map] at h1 h2
    rw [slot?, slot?, Array.getElem?_eq_getElem h1, Array.getElem?_eq_getElem h2] at hi
    rw [Array.getElem_map, Array.getElem_map]
    exact hi
  have hcount : ∀ s : Table, s.objects.length = (s.slots.map (·.isSome)).countP id := fun s => by
    rw [length_objects, Array.countP_map]
    rfl
  rw [hcount, hcount, hmap]

theorem length_objects_modify (t : Table) (h : Handle) (f : Object → Object) :
    (t.modify h f).objects.length = t.objects.length := by
  refine length_objects_congr (size_modify t h f) fun i => ?_
  rw [slot?_modify]
  split
  · exact Option.isSome_map
  · rfl

/-- Where every object stays, their number does. -/
theorem Evolves.length_objects (e : t.Evolves R t') (ht : t.Tidy)
    (hsize : t'.slots.size = t.slots.size) : t'.objects.length = t.objects.length := by
  refine length_objects_congr hsize fun i => ?_
  rw [Bool.eq_iff_iff, Option.isSome_iff_exists, Option.isSome_iff_exists]
  constructor
  · rintro ⟨o', ho'⟩
    have hi := (e.tidy ht).placed i o' ho'
    rw [← hi] at ho' ⊢
    obtain ⟨o, ho, -⟩ := e.back ho'
    exact ⟨o, ho⟩
  · rintro ⟨o, ho⟩
    have hi := ht.placed i o ho
    rw [← hi] at ho ⊢
    obtain ⟨o', ho', -⟩ := e.kept _ o ho
    exact ⟨o', ho'⟩

theorem length_objects_release (ho : t.get? h = some o) (hp : t.isPermanent h = false) :
    (t.release h).objects.length + 1 = t.objects.length := by
  have hset := countP_setIfInBounds none (index_lt_size ho)
  rw [show t.slot? h.index = some o from ho] at hset
  rw [release_eq ho hp, length_objects, length_objects]
  exact hset

def Counted (t : Table) : Prop := t.live = t.objects.length

theorem Counted.empty : Table.empty.Counted := rfl

theorem Counted.modify (hc : t.Counted) (h : Handle) (f : Object → Object) :
    (t.modify h f).Counted :=
  hc.trans (length_objects_modify t h f).symm

theorem Counted.evolves (hc : t.Counted) (ht : t.Tidy) (e : t.Evolves R t') (f : t.Frame t') :
    t'.Counted :=
  f.live.trans (hc.trans (e.length_objects ht f.size).symm)

theorem Counted.release (hc : t.Counted) (ho : t.get? h = some o) : (t.release h).Counted := by
  cases hp : t.isPermanent h with
  | true =>
    rw [release_permanent hp]
    exact hc
  | false =>
    have hlive : (t.release h).live = t.live - 1 := by
      rw [release_eq ho hp]
    have hlen := length_objects_release ho hp
    unfold Counted at hc ⊢
    omega

theorem Counted.allocate {id : ClassId} {name : String} {cells : Array Cell} (hc : t.Counted)
    (ht : t.Tidy) : (t.allocate id name cells).2.Counted := by
  unfold Table.allocate
  split
  · rename_i h rest hfree
    have hmem : h ∈ t.free := hfree ▸ List.mem_cons_self ..
    have hset := countP_setIfInBounds (some (.fresh h id name cells)) (ht.room h hmem)
    rw [show t.slot? h.index = none from ht.vacant h hmem] at hset
    unfold Counted at hc ⊢
    rw [length_objects] at hc ⊢
    exact (congrArg (· + 1) hc).trans hset.symm
  · -- a slot that there is no number for is made all the same, and stays empty
    split
    all_goals
      unfold Counted at hc ⊢
      rw [length_objects] at hc ⊢
      rw [Array.countP_push, hc]
      rfl

end Table

end TracingHeap

import TracingHeap.Proofs.Heap.Changes
import TracingHeap.Proofs.Table.Counting
import TracingHeap.Proofs.Purge.SecondPhase

namespace TracingHeap

inductive SlotCall where
  | allocate (classId : ClassId) (name : String) (cells : Array Cell)
  | release (h : Handle)
  | closePermanentPool

namespace Table

variable {t t' : Table} {h : Handle} {id : ClassId} {name : String} {cells : Array Cell}

/-- The table after a call, if a new object got a handle. -/
def call? (t : Table) : SlotCall → Option Table
  | .allocate id name cells =>
    match t.allocate id name cells with
    | (some _, t') => some t'
    | (none, _) => none
  | .release h => some (t.release h)
  | .closePermanentPool => some t.closePermanentPool

def calls? : Table → List SlotCall → Option Table
  | t, [] => some t
  | t, a :: rest =>
    match t.call? a with
    | some t' => t'.calls? rest
    | none => none

/-- The slots, the freed slots, the boundary and the number of objects are in step. -/
structure Slotted (t : Table) : Prop where
  placed : ∀ i o, t.slot? i = some o → o.handle.index = i
  live : t.live = t.slots.countP (·.isSome)
  distinct : t.free.Nodup
  recyclable : ∀ i, (∃ h ∈ t.free, h.index = i) ↔
    t.boundary ≤ i ∧ i < t.capacity ∧ t.slot? i = none
  opened : 1 ≤ t.boundary
  within : t.boundary ≤ t.capacity
  bounded : t.boundary ≤ 4294967295
  numbered : t.capacity ≤ 4294967296

/-- The second table has one more object, in a slot that was empty, or new if no slot could be used
again. -/
structure Allots (t : Table) (o : Object) (t' : Table) : Prop where
  vacant : t.contains o.handle = false
  stored : t'.get? o.handle = some o
  others : ∀ i, i ≠ o.handle.index → t'.slot? i = t.slot? i
  outside : t.isPermanent o.handle = false
  full : t.capacity < t'.capacity → ∀ i, t.boundary ≤ i → i < t.capacity → t.slot? i ≠ none

namespace Slotted

theorem empty : Table.empty.Slotted := by
  refine ⟨Tidy.empty.placed, rfl, Tidy.empty.distinct, fun i => ?_, Nat.le_refl 1, Nat.le_refl 1, ?_, ?_⟩
  · simp [Table.empty, capacity]
    omega
  · simp [Table.empty]
  · simp [Table.empty, capacity]

theorem room (ht : t.Slotted) (hh : h ∈ t.free) : h.index < t.capacity :=
  ((ht.recyclable h.index).mp ⟨h, hh, rfl⟩).2.1

theorem vacant (ht : t.Slotted) (hh : h ∈ t.free) : t.get? h = none :=
  ((ht.recyclable h.index).mp ⟨h, hh, rfl⟩).2.2

theorem tidy (ht : t.Slotted) : t.Tidy :=
  ⟨ht.placed, fun _ hh => ht.room hh, fun _ hh => ht.vacant hh, ht.distinct, ht.bounded⟩

theorem counted (ht : t.Slotted) : t.Counted := ht.live.trans (length_objects t).symm

theorem slot?_zero (ht : t.Slotted) : t.slot? 0 = none := by
  cases ho : t.slot? 0 with
  | none => rfl
  | some o =>
    have hzero := ht.placed 0 o ho
    have hpos := o.handle.pos
    omega

/-- Freeing an object outside the pool makes its slot a freed one; any other handle changes nothing. -/
theorem release (ht : t.Slotted) (h : Handle) : (t.release h).Slotted := by
  cases hp : t.isPermanent h with
  | true => rwa [release_permanent hp]
  | false =>
    cases ho : t.get? h with
    | none => rwa [release_vacant ho]
    | some o =>
      have hfree := free_release ho hp
      have htidy := ht.tidy.release h
      have hcounted := ht.counted.release ho
      have hout : t.boundary ≤ h.index := by simpa [isPermanent] using hp
      have hlt : h.index < t.capacity := index_lt_size ho
      refine ⟨htidy.placed, hcounted.trans (length_objects _), htidy.distinct, fun i => ?_, ?_, ?_, ?_,
        ?_⟩
      · rw [hfree, capacity_release, boundary_release, slot?_release]
        simp only [List.mem_cons, exists_eq_or_imp, hp, and_true]
        rw [ht.recyclable i]
        by_cases hi : i = h.index
        · simp [hi, hout, hlt]
        · simp [hi, Ne.symm hi]
      · rw [boundary_release]
        exact ht.opened
      · rw [boundary_release, capacity_release]
        exact ht.within
      · rw [boundary_release]
        exact ht.bounded
      · rw [capacity_release]
        exact ht.numbered

theorem boundary_le_close (ht : t.Slotted) : t.boundary ≤ t.closePermanentPool.boundary :=
  Nat.le_min.mpr ⟨ht.within, ht.bounded⟩

/-- The freed slots that the closed pool takes in are forgotten; those outside it stay. -/
theorem close (ht : t.Slotted) : t.closePermanentPool.Slotted := by
  have hlower := ht.boundary_le_close
  refine ⟨ht.placed, ht.live, ht.distinct.filter _, fun i => ⟨fun hm => ?_, fun hm => ?_⟩,
    Nat.le_trans ht.opened hlower, Nat.min_le_left _ _, Nat.min_le_right _ _, ht.numbered⟩
  · obtain ⟨h, hh, rfl⟩ := hm
    obtain ⟨hfree, hout⟩ := List.mem_filter.mp hh
    exact ⟨of_decide_eq_true hout, ht.room hfree, ht.vacant hfree⟩
  · obtain ⟨hout, hlt, hnone⟩ := hm
    obtain ⟨h, hh, rfl⟩ := (ht.recyclable i).mpr ⟨Nat.le_trans hlower hout, hlt, hnone⟩
    exact ⟨h, List.mem_filter.mpr ⟨hh, decide_eq_true hout⟩, rfl⟩

/-- An allocation takes the latest of the freed slots, or a new one. -/
theorem allots (ht : t.Slotted) (ha : t.allocate id name cells = (some h, t')) :
    t.Allots (.fresh h id name cells) t' := by
  have hadds := allocate_some ht.tidy ha
  have hslot := slot?_allocate ht.tidy ha
  have hothers : ∀ i, i ≠ h.index → t'.slot? i = t.slot? i := by
    intro i hi
    rw [hslot, if_neg hi]
  have hstored : t'.get? h = some (.fresh h id name cells) := (hslot h.index).trans (if_pos rfl)
  refine ⟨?_, hstored, hothers, ?_, ?_⟩
  · rw [contains, hadds.vacant]
    rfl
  · obtain ⟨rest, hfree, rfl⟩ | ⟨-, hindex, rfl⟩ := allocate_cases ha
    · obtain ⟨hout, -⟩ := (ht.recyclable h.index).mp ⟨h, hfree ▸ List.mem_cons_self .., rfl⟩
      exact decide_eq_false (Nat.not_lt.mpr hout)
    · have hout : t.boundary ≤ h.index := hindex ▸ ht.within
      exact decide_eq_false (Nat.not_lt.mpr hout)
  · intro hgrows i hout hlt hnone
    obtain ⟨rest, hfree, rfl⟩ | ⟨hfree, hindex, rfl⟩ := allocate_cases ha
    · simp [capacity] at hgrows
    · obtain ⟨g, hg, -⟩ := (ht.recyclable i).mpr ⟨hout, hlt, hnone⟩
      rw [hfree] at hg
      cases hg

/-- The slot of a new object is not a freed one any more. -/
theorem allocate (ht : t.Slotted) (ha : t.allocate id name cells = (some h, t')) : t'.Slotted := by
  have htidy := (allocate_some ht.tidy ha).tidy
  have ho := (ht.allots ha).stored
  have hothers := (ht.allots ha).others
  have hcounted : t'.Counted := by
    have hc : (t.allocate id name cells).2.Counted := ht.counted.allocate ht.tidy
    rwa [ha] at hc
  have htaken : t'.slot? h.index ≠ none := by
    intro hnone
    exact Option.some_ne_none _ (ho.symm.trans hnone)
  have hlive := hcounted.trans (length_objects t')
  obtain ⟨rest, hfree, rfl⟩ | ⟨hfree, hindex, rfl⟩ := allocate_cases ha
  · have hcap : (t.slots.setIfInBounds h.index (some (.fresh h id name cells))).size = t.slots.size :=
      Array.size_setIfInBounds
    refine ⟨htidy.placed, hlive, htidy.distinct, fun i => ?_, ht.opened, ?_, ht.bounded, ?_⟩
    · have hold := ht.recyclable i
      rw [hfree] at hold
      simp only [List.mem_cons, exists_eq_or_imp] at hold
      rw [capacity, hcap]
      by_cases hi : i = h.index
      · rw [hi]
        refine ⟨fun hm => ?_, fun hm => absurd hm.2.2 htaken⟩
        obtain ⟨g, hg, heq⟩ := hm
        rw [Handle.ext_index heq] at hg
        exact absurd (htidy.vacant h hg) htaken
      · rw [hothers i hi, ← capacity, ← hold]
        simp [Ne.symm hi]
    · exact Nat.le_trans ht.within (Nat.le_of_eq hcap.symm)
    · exact Nat.le_trans (Nat.le_of_eq hcap) ht.numbered
  · have hcap : (t.slots.push (some (.fresh h id name cells))).size = t.slots.size + 1 :=
      Array.size_push _
    refine ⟨htidy.placed, hlive, htidy.distinct, fun i => ⟨fun hm => ?_, fun hm => ?_⟩, ht.opened, ?_,
      ht.bounded, ?_⟩
    · obtain ⟨g, hg, -⟩ := hm
      cases hg
    · obtain ⟨hout, hlt, hnone⟩ := hm
      have hi : i ≠ h.index := fun hi => htaken (hi ▸ hnone)
      rw [hothers i hi] at hnone
      rw [capacity, hcap, ← hindex] at hlt
      have hold : i < t.capacity := by
        rw [capacity, ← hindex]
        omega
      obtain ⟨g, hg, -⟩ := (ht.recyclable i).mpr ⟨hout, hold, hnone⟩
      rw [hfree] at hg
      cases hg
    · exact Nat.le_trans ht.within (Nat.le_of_lt (Nat.lt_of_lt_of_eq (Nat.lt_succ_self _) hcap.symm))
    · have hlt := h.lt
      rw [capacity, hcap, ← hindex]
      omega

/-- What one call keeps. -/
theorem call {a : SlotCall} (ht : t.Slotted) (ha : t.call? a = some t') :
    t'.Slotted ∧ t.boundary ≤ t'.boundary := by
  cases a with
  | allocate id name cells =>
    simp only [call?] at ha
    split at ha
    · rename_i h u hu
      cases ha
      exact ⟨ht.allocate hu, Nat.le_of_eq (allocate_some ht.tidy hu).boundary.symm⟩
    · cases ha
  | release h =>
    cases ha
    exact ⟨ht.release h, Nat.le_of_eq (boundary_release t h).symm⟩
  | closePermanentPool =>
    cases ha
    exact ⟨ht.close, ht.boundary_le_close⟩

/-- What any number of calls keep. -/
theorem calls {l : List SlotCall} (ht : t.Slotted) (hl : t.calls? l = some t') :
    t'.Slotted ∧ t.boundary ≤ t'.boundary := by
  induction l generalizing t with
  | nil =>
    cases hl
    exact ⟨ht, Nat.le_refl _⟩
  | cons a rest ih =>
    simp only [calls?] at hl
    split at hl
    · rename_i u hu
      obtain ⟨hmid, hfirst⟩ := ht.call hu
      obtain ⟨hend, hrest⟩ := ih hmid hl
      exact ⟨hend, Nat.le_trans hfirst hrest⟩
    · cases hl

end Slotted

/-- After any calls the parts of a table are in step, the pool never gets smaller, and an allocation takes
a slot that held nothing, leaves the others alone, and makes a new one only if there is none to use
again. -/
theorem calls_slotted {before after : List SlotCall} (hbefore : empty.calls? before = some t)
    (hafter : t.calls? after = some t') :
    t.slot? 0 = none ∧ t.Slotted ∧ t.boundary ≤ t'.boundary ∧
      ∀ id name cells h u, t.allocate id name cells = (some h, u) →
        t.Allots (.fresh h id name cells) u := by
  have ht := (Slotted.empty.calls hbefore).1
  exact ⟨ht.slot?_zero, ht, (ht.calls hafter).2, fun id name cells h u hu => ht.allots hu⟩

/-- Three objects, the second of which is freed twice, so that the closed pool takes in an empty slot. Of
the two objects made after that one is freed, and so is one in the pool, in vain: the next object takes the
fourth slot. -/
theorem calls_slotted_reused : ∃ (before after : List SlotCall) (t t' : Table) (h : Handle),
    empty.calls? before = some t ∧ t.calls? after = some t' ∧
      t.free = [h] ∧ h.index = 4 ∧ t.boundary = 4 ∧ t'.boundary = 6 ∧
      t.slot? 0 = none ∧ t.Slotted ∧ t.boundary ≤ t'.boundary ∧
      ∃ u, t.allocate ⟨0⟩ "next" #[] = (some h, u) ∧ t.Allots (.fresh h ⟨0⟩ "next" #[]) u := by
  let handle (i : Nat) (hpos : 0 < i) (hlt : i < 10) : Handle := ⟨i, hpos, by omega⟩
  let first := handle 1 (by decide) (by decide)
  let second := handle 2 (by decide) (by decide)
  let fourth := handle 4 (by decide) (by decide)
  let make (name : String) : SlotCall := .allocate ⟨0⟩ name #[]
  let before : List SlotCall := [make "one", make "two", make "three", .release second,
    .release second, .closePermanentPool, make "four", make "five", .release fourth, .release first]
  have hrun : (empty.calls? before).any (fun t =>
      decide (t.free = [fourth] ∧ t.boundary = 4) &&
        decide ((t.allocate ⟨0⟩ "next" #[]).1 = some fourth) &&
          (t.calls? [.closePermanentPool]).any fun t' => decide (t'.boundary = 6)) = true := by
    decide +kernel
  obtain ⟨t, hbefore, htest⟩ := (Option.any_eq_true _ _).mp hrun
  simp only [Bool.and_eq_true, decide_eq_true_eq] at htest
  obtain ⟨⟨⟨hfree, hbound⟩, hmade⟩, htest⟩ := htest
  obtain ⟨t', hafter, hclosed⟩ := (Option.any_eq_true _ _).mp htest
  obtain ⟨hzero, hslotted, hmono, hallots⟩ := calls_slotted hbefore hafter
  have hu : t.allocate ⟨0⟩ "next" #[] = (some fourth, (t.allocate ⟨0⟩ "next" #[]).2) :=
    Prod.ext hmade rfl
  exact ⟨before, [.closePermanentPool], t, t', fourth, hbefore, hafter, hfree, rfl, hbound,
    of_decide_eq_true hclosed, hzero, hslotted, hmono, _, hu, hallots _ _ _ _ _ hu⟩

end Table

end TracingHeap

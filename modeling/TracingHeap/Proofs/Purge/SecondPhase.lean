import TracingHeap.Proofs.Table.Counting
import TracingHeap.Proofs.Purge.Spared
import TracingHeap.Proofs.Purge.FirstPhase

namespace TracingHeap

namespace Table

variable {t t' : Table} {c : Nat} {g h : Handle} {o : Object} {f : Flag}

def flagged? (slot : Option Object) : Option Handle :=
  (slot.filter (·.isUnreachable)).map (·.handle)

theorem flagged?_some (o : Object) :
    flagged? (some o) = if o.isUnreachable then some o.handle else none := by
  unfold flagged?
  rw [Option.filter_some]
  split <;> rfl

def flaggedFrom (t : Table) (c : Nat) : List Handle := (t.slots.toList.drop c).filterMap flagged?

def pooledFrom (t : Table) (c : Nat) : List Handle := (t.flaggedFrom c).filter t.isPermanent

/-- What is left when the flagged objects from slot `c` on have been freed one after the other. -/
def swept (t : Table) (c : Nat) : Table := (t.flaggedFrom c).foldl Table.release t

theorem flaggedFrom_eq (t : Table) (c : Nat) :
    t.flaggedFrom c = (flagged? (t.slot? c)).toList ++ t.flaggedFrom (c + 1) := by
  unfold flaggedFrom slot?
  by_cases hc : c < t.slots.size
  · rw [List.drop_eq_getElem_cons (by simpa using hc), List.filterMap_cons, Array.getElem_toList,
      Array.getElem?_eq_getElem hc, Option.join_some]
    cases flagged? t.slots[c] <;> rfl
  · have hle : t.slots.toList.length ≤ c := by simpa using Nat.le_of_not_lt hc
    rw [List.drop_eq_nil_of_le hle, List.drop_eq_nil_of_le (Nat.le_succ_of_le hle),
      Array.getElem?_eq_none (Nat.le_of_not_lt hc)]
    rfl

theorem flaggedFrom_capacity (hc : t.capacity ≤ c) : t.flaggedFrom c = [] := by
  unfold flaggedFrom
  rw [List.drop_eq_nil_of_le (by simpa [capacity] using hc)]
  rfl

theorem Tidy.mem_flaggedFrom (ht : t.Tidy) : h ∈ t.flaggedFrom c ↔
    (∃ o, t.get? h = some o ∧ o.isUnreachable = true) ∧ c ≤ h.index := by
  unfold flaggedFrom flagged?
  simp only [List.mem_filterMap, Option.map_eq_some_iff, Option.filter_eq_some_iff]
  simp only [List.mem_iff_getElem?, List.getElem?_drop]
  constructor
  · rintro ⟨_, ⟨i, hi⟩, o, ⟨rfl, hu⟩, rfl⟩
    obtain ⟨ho, hindex⟩ := ht.getElem?_toList.mp hi
    exact ⟨⟨o, ho, hu⟩, by omega⟩
  · rintro ⟨⟨o, ho, hu⟩, hc⟩
    have hh := ht.handle_eq ho
    refine ⟨some o, ⟨h.index - c, ht.getElem?_toList.mpr ⟨hh ▸ ho, ?_⟩⟩, o, ⟨rfl, hu⟩, hh⟩
    rw [hh]
    omega

/-- What a table holds from a slot on tells what is flagged there. -/
theorem flaggedFrom_congr (hslot : ∀ i, c ≤ i → flagged? (t'.slot? i) = flagged? (t.slot? i))
    (hcap : t'.capacity = t.capacity) : t'.flaggedFrom c = t.flaggedFrom c := by
  induction hn : t.capacity - c generalizing c with
  | zero => rw [flaggedFrom_capacity (by omega), flaggedFrom_capacity (by omega)]
  | succ n ih =>
    rw [flaggedFrom_eq, flaggedFrom_eq t, hslot c (Nat.le_refl c),
      ih (fun i hi => hslot i (Nat.le_of_succ_le hi)) (by omega)]

theorem flagged?_setFlag (hf : f ≠ .unreachable) (i : Nat) :
    flagged? ((t.setFlag h f).slot? i) = flagged? (t.slot? i) := by
  rw [setFlag, slot?_modify]
  split
  · cases t.slot? i with
    | none => rfl
    | some o =>
      have hu : (o.set f).isUnreachable = o.isUnreachable := by simp [Object.isUnreachable, hf]
      rw [Option.map_some, flagged?_some, flagged?_some, hu]
      rfl
  · rfl

theorem flaggedFrom_setFlag (hf : f ≠ .unreachable) (c : Nat) :
    (t.setFlag h f).flaggedFrom c = t.flaggedFrom c :=
  flaggedFrom_congr (fun i _ => flagged?_setFlag hf i) (size_modify t h _)

theorem flaggedFrom_release (hc : h.index < c) : (t.release h).flaggedFrom c = t.flaggedFrom c := by
  apply flaggedFrom_congr _ (capacity_release t h)
  intro i hi
  rw [slot?_release, if_neg (by omega)]

theorem release_setFlag_of_ne (hg : g ≠ h) :
    (t.setFlag h f).release g = (t.release g).setFlag h f := by
  have hi : g.index ≠ h.index := fun hi => hg (Handle.ext_index hi)
  have hslots : (t.slots.modify h.index (Option.map (·.set f))).setIfInBounds g.index none =
      (t.slots.setIfInBounds g.index none).modify h.index (Option.map (·.set f)) := by
    apply Array.ext_getElem?
    intro i
    simp only [Array.getElem?_setIfInBounds, Array.getElem?_modify, Array.size_modify]
    by_cases he : g.index = i
    · have hne : h.index ≠ i := fun hh => hi (he.trans hh.symm)
      simp [hne]
    · simp [he]
  unfold release
  rw [contains_setFlag, setFlag, isPermanent_modify]
  split
  · rfl
  · split
    · exact congrArg (fun slots => Table.mk slots (g :: t.free) t.boundary (t.live - 1)) hslots
    · rfl

theorem release_setFlag_self (ho : t.get? h = some o) (hp : t.isPermanent h = false) :
    (t.setFlag h f).release h = t.release h := by
  have hslots : (t.slots.modify h.index (Option.map (·.set f))).setIfInBounds h.index none =
      t.slots.setIfInBounds h.index none := by
    apply Array.ext_getElem?
    intro i
    simp only [Array.getElem?_setIfInBounds, Array.getElem?_modify, Array.size_modify]
    split <;> rfl
  have hin : t.contains h = true := contains_iff.mpr ⟨o, ho⟩
  unfold release
  rw [contains_setFlag, hin, setFlag, isPermanent_modify, hp]
  exact congrArg (fun slots => Table.mk slots (h :: t.free) t.boundary (t.live - 1)) hslots

/-- What is noted of an object is forgotten when it is freed. -/
theorem foldl_release_setFlag {l : List Handle} (hm : h ∈ l) (ho : t.get? h = some o)
    (hp : t.isPermanent h = false) :
    l.foldl Table.release (t.setFlag h f) = l.foldl Table.release t := by
  induction l generalizing t with
  | nil => cases hm
  | cons g rest ih =>
    rw [List.foldl_cons, List.foldl_cons]
    by_cases he : g = h
    · rw [he, release_setFlag_self ho hp]
    · rw [release_setFlag_of_ne he]
      apply ih ((List.mem_cons.mp hm).resolve_left (Ne.symm he))
      · rw [get?_release, if_neg (fun hh => he hh.1.symm), ho]
      · simpa [isPermanent] using hp

/-- What is noted of objects outside the permanent pool does not change what the second phase
leaves. -/
theorem Notes.swept (hn : Notes (fun h => c ≤ h.index) t t') (ht : t.Tidy) (hc : t.boundary ≤ c) :
    t'.swept c = t.swept c := by
  obtain ⟨h, o, f, hout, ho, hu, hf, rfl⟩ := hn
  have hne : f ≠ .unreachable := by
    rcases hf with rfl | rfl <;> decide
  unfold Table.swept
  rw [flaggedFrom_setFlag hne]
  refine foldl_release_setFlag (ht.mem_flaggedFrom.mpr ⟨⟨o, ho, hu⟩, hout⟩) ho ?_
  simp only [isPermanent, decide_eq_false_iff_not]
  omega

theorem Annotates.swept (a : Annotates (fun h => c ≤ h.index) t t') (ht : t.Tidy)
    (hc : t.boundary ≤ c) : t'.swept c = t.swept c := by
  induction a with
  | refl => rfl
  | tail a hn ih =>
    exact (hn.swept (Annotates.tidy a ht) (Annotates.boundary a ▸ hc)).trans ih

theorem Annotates.flaggedFrom {among : Handle → Prop} (a : Annotates among t t') (c : Nat) :
    t'.flaggedFrom c = t.flaggedFrom c := by
  induction a with
  | refl => rfl
  | tail _ hn ih =>
    obtain ⟨h, o, f, -, -, -, hf, rfl⟩ := hn
    have hne : f ≠ .unreachable := by
      rcases hf with rfl | rfl <;> decide
    rw [flaggedFrom_setFlag hne, ih]

/-- Every flagged object from slot `c` on has been through both stages of its destruction. -/
def Ripe (t : Table) (c : Nat) : Prop := ∀ h o, t.get? h = some o → o.isUnreachable = true →
  c ≤ h.index → o.has .beginDestroyed = true ∧ o.has .finishDestroyed = true

end Table

namespace Sweep

variable {w w' w'' : Sweep}

/-- The walk has freed the flagged objects that it has come past, and nothing else. -/
structure Clears (w w' : Sweep) : Prop where
  tidy : w'.table.Tidy
  boundary : w'.table.boundary = w.table.boundary
  capacity : w'.table.capacity = w.table.capacity
  le : w.cursor ≤ w'.cursor
  get : ∀ h, w'.table.get? h = if w.table.isUnreachable h = true ∧ w.table.isPermanent h = false ∧
    w.cursor ≤ h.index ∧ h.index < w'.cursor then none else w.table.get? h
  swept : w'.table.swept w'.cursor = w.table.swept w.cursor
  freed : w'.freed + (w'.table.flaggedFrom w'.cursor).length =
    w.freed + (w.table.flaggedFrom w.cursor).length
  counted : w.table.Counted → w'.table.Counted
  accounted : w'.freed + (w'.table.pooledFrom w'.cursor).length + w'.table.objects.length =
    w.freed + (w.table.pooledFrom w.cursor).length + w.table.objects.length

namespace Clears

theorem refl (ht : w.table.Tidy) : w.Clears w :=
  ⟨ht, rfl, rfl, Nat.le_refl _, fun h => by rw [if_neg (by omega)], rfl, rfl, id, rfl⟩

theorem trans (a : w.Clears w') (b : w'.Clears w'') : w.Clears w'' := by
  have hle := a.le
  have hle' := b.le
  refine ⟨b.tidy, b.boundary.trans a.boundary, b.capacity.trans a.capacity, Nat.le_trans hle hle',
    fun h => ?_, b.swept.trans a.swept, b.freed.trans a.freed, b.counted ∘ a.counted,
    b.accounted.trans a.accounted⟩
  have hperm : w'.table.isPermanent h = w.table.isPermanent h := by
    simp [Table.isPermanent, a.boundary]
  rw [b.get h, hperm]
  by_cases hh : w'.cursor ≤ h.index
  · have hsame : w'.table.get? h = w.table.get? h := by
      rw [a.get h, if_neg (by omega)]
    have hu : w'.table.isUnreachable h = w.table.isUnreachable h := by
      simp only [Table.isUnreachable, Table.has, hsame]
    rw [hsame, hu]
    simp only [hh, Nat.le_trans hle hh, true_and]
  · rw [if_neg (by omega), a.get h]
    have hlt : h.index < w''.cursor := by omega
    simp only [show h.index < w'.cursor by omega, hlt]

theorem ripe (a : w.Clears w') (hr : w.table.Ripe w.cursor) : w'.table.Ripe w'.cursor := by
  intro h o ho hu hc
  rw [a.get h, if_neg (by omega)] at ho
  exact hr h o ho hu (Nat.le_trans a.le hc)

end Clears

/-- Freeing the flagged object at the cursor. -/
theorem clears_release (ht : w.table.Tidy) {o : Object} (hslot : w.table.slot? w.cursor = some o)
    (hu : o.isUnreachable = true) :
    w.Clears { w with
      table := w.table.release o.handle, cursor := w.cursor + 1, freed := w.freed + 1 } := by
  have hi := ht.placed _ o hslot
  have ho : w.table.get? o.handle = some o := by
    rw [Table.get?, hi]
    exact hslot
  have hflagged : w.table.flaggedFrom w.cursor =
      o.handle :: (w.table.release o.handle).flaggedFrom (w.cursor + 1) := by
    rw [Table.flaggedFrom_release (by omega), Table.flaggedFrom_eq, hslot, Table.flagged?_some, hu]
    rfl
  refine ⟨(Table.Spares.release ht ho hu).tidy, Table.boundary_release _ _,
    Table.capacity_release _ _, Nat.le_succ _, fun h => ?_, ?_, ?_, fun hc => hc.release ho, ?_⟩
  · rw [Table.get?_release]
    by_cases he : h = o.handle
    · rw [he, Table.isUnreachable_of_get? ho, hu, hi]
      simp
    · have hne : h.index ≠ w.cursor := fun hh => he (Handle.ext_index (hh.trans hi.symm))
      rw [if_neg (fun hh => he hh.1), if_neg (by dsimp only; omega)]
  · rw [Table.swept, Table.swept, hflagged, List.foldl_cons]
  · rw [hflagged, List.length_cons]
    dsimp only
    omega
  · have hperm : (w.table.release o.handle).isPermanent = w.table.isPermanent := by
      funext h
      simp [Table.isPermanent]
    rw [Table.pooledFrom, Table.pooledFrom, hflagged, hperm, List.filter_cons]
    dsimp only
    cases hp : w.table.isPermanent o.handle with
    | true =>
      rw [if_pos rfl, List.length_cons, Table.release, if_pos hp]
      omega
    | false =>
      have hlen := Table.length_objects_release ho hp
      rw [if_neg Bool.false_ne_true]
      omega

/-- Going past a slot that holds no flagged object. -/
theorem clears_pass (ht : w.table.Tidy)
    (hslot : ∀ o, w.table.slot? w.cursor = some o → o.isUnreachable = false) :
    w.Clears { w with cursor := w.cursor + 1 } := by
  have hflagged : w.table.flaggedFrom w.cursor = w.table.flaggedFrom (w.cursor + 1) := by
    rw [Table.flaggedFrom_eq]
    cases ho : w.table.slot? w.cursor with
    | none => rfl
    | some o =>
      rw [Table.flagged?_some, hslot o ho]
      rfl
  refine ⟨ht, rfl, rfl, Nat.le_succ _, fun h => ?_, ?_, ?_, id, ?_⟩
  · rw [if_neg]
    rintro ⟨hu, -, hle, hlt⟩
    have he : h.index = w.cursor := Nat.le_antisymm (Nat.le_of_lt_succ hlt) hle
    cases ho : w.table.get? h with
    | none => simp [Table.isUnreachable, Table.has, ho] at hu
    | some o =>
      rw [Table.isUnreachable_of_get? ho] at hu
      rw [Table.get?, he] at ho
      rw [hslot o ho] at hu
      cases hu
  · rw [Table.swept, Table.swept, hflagged]
  · rw [hflagged]
  · rw [Table.pooledFrom, Table.pooledFrom, hflagged]

/-- The walk deals with one slot. -/
theorem step_clears (ht : w.table.Tidy) (hr : w.table.Ripe w.cursor) :
    ∃ isFreed w', w.step = .ok (isFreed, w') ∧ w.Clears w' ∧ w'.cursor = w.cursor + 1 := by
  unfold step
  dsimp only
  split
  · rename_i hslot
    refine ⟨false, _, rfl, clears_pass ht fun o ho => ?_, rfl⟩
    rw [hslot] at ho
    cases ho
  · rename_i o hslot
    have hi := ht.placed _ o hslot
    split
    · rename_i hu
      refine ⟨false, _, rfl, clears_pass ht fun p hp => ?_, rfl⟩
      rw [hslot] at hp
      cases hp
      simpa using hu
    · rename_i hu
      have hu' : o.isUnreachable = true := by simpa using hu
      have ho : w.table.get? o.handle = some o := by
        rw [Table.get?, hi]
        exact hslot
      obtain ⟨hb, hf⟩ := hr _ o ho hu' (Nat.le_of_eq hi.symm)
      rw [hb, hf]
      exact ⟨true, _, rfl, clears_release ht hslot hu', rfl⟩

/-- The walk goes on for at least one slot, and without a deadline for all. -/
theorem walk_clears (deadline : Option Deadline) (left : Nat) : ∀ w : Sweep, w.table.Tidy →
    w.table.Ripe w.cursor → ∃ ended w', walk deadline left w = .ok (ended, w') ∧ w.Clears w' ∧
      w.cursor + min left 1 ≤ w'.cursor ∧ (ended = true → w'.cursor = w.cursor + left) ∧
      (deadline = none ∨ left = 0 → ended = true) := by
  induction left with
  | zero =>
    intro w ht _
    exact ⟨true, w, rfl, .refl ht, Nat.le_refl _, fun _ => rfl, fun _ => rfl⟩
  | succ left ih =>
    intro w ht hr
    obtain ⟨isFreed, q, hq, hclears, hc⟩ := step_clears ht hr
    have hrest : ∀ p : Sweep, w.Clears p → p.cursor = w.cursor + 1 →
        ∃ ended w', walk deadline left p = .ok (ended, w') ∧ w.Clears w' ∧
          w.cursor + min (left + 1) 1 ≤ w'.cursor ∧
          (ended = true → w'.cursor = w.cursor + (left + 1)) ∧
          (deadline = none ∨ left + 1 = 0 → ended = true) := by
      intro p hp hpc
      obtain ⟨ended, w', hwalk, hclears, hlow, hend, hd⟩ := ih p hp.tidy (hp.ripe hr)
      have hle := hclears.le
      exact ⟨ended, w', hwalk, hp.trans hclears, by omega,
        fun h => by have := hend h; omega, fun h => hd (.inl (h.resolve_right (Nat.succ_ne_zero _)))⟩
    have hlook : w.Clears { q with looks := q.looks + 1 } :=
      ⟨hclears.tidy, hclears.boundary, hclears.capacity, hclears.le, hclears.get, hclears.swept,
        hclears.freed, hclears.counted, hclears.accounted⟩
    rw [walk, hq]
    change ∃ ended w', (if (isFreed && q.freed % sweepGranularity = 0) = true then _ else _) = _ ∧ _
    split
    · split
      · rename_i hstop
        refine ⟨false, _, rfl, hlook, ?_, fun h => Bool.noConfusion h, fun hd => ?_⟩
        · change _ ≤ q.cursor
          omega
        · rw [hd.resolve_right (Nat.succ_ne_zero _)] at hstop
          cases hstop
      · exact hrest _ hlook hc
    · exact hrest q hclears hc

end Sweep

end TracingHeap

import Mathlib.Data.List.Basic
import TracingHeap.Proofs.Table.Evolution

namespace TracingHeap

/-- A collector of containers lists the same slots in the same order, whatever they hold. -/
def CellCollector.Ordered (f : CellCollector) : Prop :=
  ∀ (c : Container) (p : Place), f ((Cell.container c).clear p) = f (.container c)

/-- A collector of whole objects lists the same slots in the same order, whatever they hold. -/
def ObjectCollector.Ordered (f : ObjectCollector) : Prop :=
  ∀ o o' : Object, o.Same o' → (∃ as, o'.cells = Cell.clearAll o.cells as) → f o' = f o

mutual

def Kind.Ordered : Kind → Prop
  | .value | .reference _ | .references _ => True
  | .fixed element _ => element.Ordered
  | .inline _ fields | .structs _ fields => fields.Ordered
  | .container spec => ∀ f, spec.collector = some f → f.Ordered

def Fields.Ordered : Fields → Prop
  | .nil => True
  | .cons _ kind rest => kind.Ordered ∧ rest.Ordered

end

/-- The collectors that a class brings along list in one order. -/
structure ClassSpec.Ordered (spec : ClassSpec) : Prop where
  fields : spec.fields.Ordered
  collector : ∀ f, spec.collector = some f → f.Ordered

def Schema.Ordered (s : Schema) : Prop := ∀ id e, s.get? id = some e → e.spec.Ordered

namespace Part

def Ordered : Part → Prop
  | fields _ fs => fs.Ordered
  | collector f => f.Ordered

end Part

namespace Cell

theorem size_clear_refs (ss : Array Slot) (p : Place) :
    ∃ ss', (Cell.refs ss).clear p = .refs ss' ∧ ss'.size = ss.size := by
  cases p with
  | item i => exact ⟨_, rfl, Array.size_setIfInBounds⟩
  | _ => exact ⟨ss, rfl, rfl⟩

/-- Emptying a slot of a struct array empties one of a row, if anything. -/
theorem clear_structs (es : Array (Array Cell)) (p : Place) :
    (Cell.structs es).clear p = .structs es ∨ ∃ i j q,
      (Cell.structs es).clear p = .structs (es.modify i fun row => row.modify j (·.clear q)) := by
  cases p with
  | element i j q => exact .inr ⟨i, j, q, rfl⟩
  | _ => exact .inl rfl

end Cell

mutual

/-- A field lists the same slots when one of them has lost its reference. -/
theorem Kind.slots_clear {cells : Array Cell} {j : Nat} {p : Place} :
    (k : Kind) → ∀ (pos : Nat), k.Ordered → k.FitsAt cells pos →
      k.slots (cells.modify j (·.clear p)) pos = k.slots cells pos
  | .value, _, _, _ => rfl
  | .reference _, _, _, _ => rfl
  | .references _, pos, _, ⟨ss, hc⟩ => by
    obtain ⟨ss', hclear, hsize⟩ := Cell.size_clear_refs ss p
    simp only [Kind.slots, hc, getElem?_modify_of_some hc]
    split
    · rename_i ts hts
      split at hts
      · rw [hclear] at hts
        cases hts
        rw [hsize]
      · cases hts
        rfl
    · rename_i hnone
      split at hnone
      · exact absurd (congrArg some hclear) (hnone ss')
      · exact absurd rfl (hnone ss)
  | .fixed element count, pos, hk, hf => by
    simp only [Kind.slots]
    refine List.flatMap_congr fun i hi => ?_
    exact element.slots_clear _ hk (hf i (List.mem_range.mp hi))
  | .inline _ fields, pos, hk, hf => fields.slots_clear pos hk hf
  | .structs _ fields, pos, hk, ⟨es, hc, hrows⟩ => by
    have hrow : ∀ i j q, ∀ e < es.size,
        fields.slots ((es.modify i fun row => row.modify j (·.clear q)).getD e #[]) 0 =
          fields.slots (es.getD e #[]) 0 := by
      intro i j q e he
      rw [Array.getD_eq_getD_getElem?, Array.getD_eq_getD_getElem?, Array.getElem?_modify,
        Array.getElem?_eq_getElem he]
      split
      · exact fields.slots_clear 0 hk (hrows _ (Array.getElem_mem he)).2
      · rfl
    simp only [Kind.slots, hc, getElem?_modify_of_some hc]
    by_cases hj : j = pos
    · rw [if_pos hj]
      rcases Cell.clear_structs es p with hsame | ⟨i, j', q, hclear⟩
      · rw [hsame]
      · rw [hclear]
        simp only [Array.size_modify]
        refine List.flatMap_congr fun e he => ?_
        rw [hrow i j' q e (List.mem_range.mp he)]
    · rw [if_neg hj]
  | .container spec, pos, hk, ⟨c, hc⟩ => by
    simp only [Kind.slots, hc, getElem?_modify_of_some hc]
    by_cases hj : j = pos
    · rw [if_pos hj]
      cases spec.holdsReferences with
      | false => rfl
      | true =>
        cases hcollect : spec.collector with
        | none => rfl
        | some f =>
          dsimp only
          rw [hk f hcollect c p]
    · rw [if_neg hj]

theorem Fields.slots_clear {cells : Array Cell} {j : Nat} {p : Place} :
    (fs : Fields) → ∀ (pos : Nat), fs.Ordered → fs.FitAt cells pos →
      fs.slots (cells.modify j (·.clear p)) pos = fs.slots cells pos
  | .nil, _, _, _ => rfl
  | .cons _ kind rest, pos, hk, hf => by
    rw [Fields.slots, Fields.slots, kind.slots_clear pos hk.1 hf.1, rest.slots_clear _ hk.2 hf.2]

end

theorem Fields.slots_clearAll {fs : Fields} {base : Nat} (hk : fs.Ordered) (as : List Address) :
    ∀ {cells : Array Cell}, fs.FitAt cells base →
      fs.slots (Cell.clearAll cells as) base = fs.slots cells base := by
  induction as with
  | nil => exact fun _ => rfl
  | cons a rest ih =>
    intro cells hf
    have hfirst := fs.slots_clear (j := a.offset) (p := a.place) base hk hf
    exact (ih (fs.fitAt_modify (.clear a.place) a.offset hf)).trans hfirst

namespace Schema

variable {s : Schema} {o o' : Object} {w : Walk}

/-- Every part of a class lists in one order. -/
theorem Ordered.parts (hord : s.Ordered) (hs : s.Layered) : ∀ id e, s.get? id = some e →
    ∀ p ∈ s.outline id, p.Ordered := by
  have own : ∀ id e, s.get? id = some e → ∀ inherited : List Part, (∀ p ∈ inherited, p.Ordered) →
      ∀ p ∈ Part.extend inherited e.base e.spec.fields e.spec.collector, p.Ordered := by
    intro id e he inherited hi p hp
    rcases Part.mem_extend hp with hp | rfl | ⟨f, hf, rfl⟩
    · exact hi p hp
    · exact (hord id e he).fields
    · exact (hord id e he).collector f hf
  refine hs.induct ?_ ?_
  · intro id e he hsup _
    rw [outline_root he hsup]
    exact own id e he [] (by simp)
  · intro id e p q he hsup hlt hq _ ih
    rw [outline_child he hsup hlt]
    exact own id e he _ ih

def listed (s : Schema) (o : Object) : List (Address × Strength) :=
  (s.outline o.classId).flatMap (Part.slots o)

/-- What an object lists stays as it is when some slots have lost their references. -/
theorem Ordered.listed_eq (hord : s.Ordered) (hs : s.Layered) (ho : s.Fits o) (hsame : o.Same o')
    (hcells : ∃ as, o'.cells = Cell.clearAll o.cells as) : s.listed o' = s.listed o := by
  obtain ⟨⟨e, he, -⟩, hparts⟩ := ho
  rw [listed, listed, hsame.classId]
  refine List.flatMap_congr fun p hp => ?_
  have hp' := hord.parts hs _ e he p hp
  have hfit := hparts p hp
  cases p with
  | fields base fs =>
    obtain ⟨as, has⟩ := hcells
    rw [Part.slots, Part.slots, has]
    exact Fields.slots_clearAll hp' as hfit
  | collector f => exact hp' o o' hsame hcells

/-- A walk goes through the slots as they are listed. -/
theorem Layered.walk_listed (hs : s.Layered) (ho : s.Fits o) (hw : s.walk o = .ok w) :
    w.fault = none ∧ w.visits.map Visit.found = s.listed o := by
  rcases hs.walk_cases ho with ⟨u, hu, hfault, hfound⟩ | ⟨f, hf, -⟩
  · rw [hw] at hu
    cases hu
    exact ⟨hfault, hfound⟩
  · rw [hw] at hf
    cases hf

/-- Two objects of one class that list the same slots are reported alike. -/
theorem Reports.of_listed {a : Address} {k : Strength} (h : s.Reports o a k) (hs : s.Layered)
    (ho : s.Fits o) (ho' : s.Fits o') (hclass : o'.classId = o.classId)
    (hlisted : s.listed o' = s.listed o) : s.Reports o' a k := by
  obtain ⟨w, n, hw, hn, rfl, rfl⟩ := h
  obtain ⟨ts, hts, -⟩ := walk_ok_iff.mp hw
  have hw' : s.walk o' = .ok (ts.walk o') := walk_ok_iff.mpr ⟨ts, hclass ▸ hts, rfl⟩
  have hm := List.mem_map_of_mem (f := Visit.found) hn
  rw [(hs.walk_listed ho hw).2, ← hlisted, ← (hs.walk_listed ho' hw').2] at hm
  obtain ⟨n', hn', he⟩ := List.mem_map.mp hm
  obtain ⟨haddress, hstrength⟩ := Prod.mk.inj he
  exact ⟨_, n', hw', hn', haddress, hstrength⟩

end Schema

namespace Cell

theorem bagStrong_clear (c : Cell) (p : Place) : (c.clear p).bagStrong = c.bagStrong := by
  cases c with
  | container k => cases k with
    | bag ss ws => cases p <;> simp [clear, bagStrong]
    | sealed => cases p <;> rfl
  | _ => cases p <;> rfl

theorem bagWeak_clear (c : Cell) (p : Place) : (c.clear p).bagWeak = c.bagWeak := by
  cases c with
  | container k => cases k with
    | bag ss ws => cases p <;> simp [clear, bagWeak]
    | sealed => cases p <;> rfl
  | _ => cases p <;> rfl

theorem bagSlots_clear (c : Cell) (p : Place) : (c.clear p).bagSlots = c.bagSlots := by
  simp only [bagSlots, bagStrong_clear, bagWeak_clear]

theorem ordered_bagSlots : CellCollector.Ordered bagSlots := fun c => bagSlots_clear (.container c)

end Cell

/-- A class that lists in one order joins others that do. -/
theorem Schema.Ordered.register {s s' : Schema} {spec : ClassSpec} {id : ClassId} (hs : s.Ordered)
    (hspec : spec.Ordered) (hok : s.register spec = .ok (id, s')) : s'.Ordered := by
  obtain ⟨e, rfl, hsame, -⟩ := Schema.register_ok hok
  intro i q hq
  simp only [Schema.get?, Array.getElem?_push] at hq
  split at hq
  · cases hq
    rw [hsame]
    exact hspec
  · exact hs i q hq

end TracingHeap

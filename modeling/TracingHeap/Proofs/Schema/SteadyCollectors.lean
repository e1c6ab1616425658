import TracingHeap.Proofs.Schema.Outline
import TracingHeap.Schema.Basic

namespace TracingHeap

/-- A slot that holds a reference in two states of a container is reported alike in both. Slots that
hold none may be left out. -/
def CellCollector.Steady (f : CellCollector) : Prop :=
  ∀ (c d : Container) (p : Place) (k : Strength) (g g' : Handle),
    (Cell.container c).slot? p = some (some g) → (Cell.container d).slot? p = some (some g') →
    (p, k) ∈ f (.container d) → (p, k) ∈ f (.container c)

/-- The two are the same object, in states that may differ. -/
structure Object.Same (o o' : Object) : Prop where
  handle : o'.handle = o.handle
  classId : o'.classId = o.classId
  name : o'.name = o.name

/-- A slot that holds a reference in two states of an object is reported alike in both. Slots that
hold none may be left out. -/
def ObjectCollector.Steady (f : ObjectCollector) : Prop :=
  ∀ (o o' : Object) (a : Address) (k : Strength) (g g' : Handle), o.Same o' →
    o.slot? a = some (some g) → o'.slot? a = some (some g') → (a, k) ∈ f o' → (a, k) ∈ f o

mutual

/-- The containers in a field start without references and have steady collectors. -/
def Kind.Honest : Kind → Prop
  | .value | .reference _ | .references _ => True
  | .fixed element _ => element.Honest
  | .inline _ fields | .structs _ fields => fields.Honest
  | .container spec =>
    (Cell.container spec.contents).Blank ∧ ∀ f, spec.collector = some f → f.Steady

def Fields.Honest : Fields → Prop
  | .nil => True
  | .cons _ kind rest => kind.Honest ∧ rest.Honest

end

/-- What is asked of the collectors that a class brings along: a slot that holds a reference in two states of
an object is reported with the same strengths in both, whatever else its cells, values and flags are then. -/
structure ClassSpec.Honest (spec : ClassSpec) : Prop where
  fields : spec.fields.Honest
  collector : ∀ f, spec.collector = some f → f.Steady

namespace Part

def Honest : Part → Prop
  | fields _ fs => fs.Honest
  | collector f => f.Steady

end Part

namespace Cell

theorem slotAt?_within {cells : Array Cell} {es : Array (Array Cell)} {pos i : Nat}
    {row : Array Cell} (hc : cells[pos]? = some (.structs es)) (hrow : es[i]? = some row)
    (a : Address) : slotAt? cells (a.within pos i) = slotAt? row a := by
  simp only [slotAt?, Address.within, hc, slot?, hrow]

/-- A slot inside a struct array lies in one of its rows. -/
theorem row_of_within {cells : Array Cell} {es : Array (Array Cell)} {pos i : Nat} {a : Address}
    (hc : cells[pos]? = some (.structs es)) (h : (slotAt? cells (a.within pos i)).isSome) :
    ∃ row, es[i]? = some row := by
  simp only [slotAt?, Address.within, hc, slot?] at h
  cases hrow : es[i]? with
  | none => simp [hrow] at h
  | some row => exact ⟨row, rfl⟩

end Cell

mutual

/-- A slot that holds a reference in two rows of cells is reported of the one if it is of the other. -/
theorem Kind.slots_steady {cells cells' : Array Cell} {a : Address} {s : Strength} {g g' : Handle} :
    (k : Kind) → ∀ (pos : Nat), k.Honest → k.FitsAt cells pos → k.FitsAt cells' pos →
      Cell.slotAt? cells a = some (some g) → Cell.slotAt? cells' a = some (some g') →
      (a, s) ∈ k.slots cells' pos → (a, s) ∈ k.slots cells pos
  | .value, _, _, _, _, _, _, h => h
  | .reference _, _, _, _, _, _, _, h => h
  | .references _, pos, _, ⟨ss, hc⟩, ⟨ss', hc'⟩, hs, _, h => by
    simp only [Kind.slots, hc', List.mem_map, List.mem_range] at h
    obtain ⟨i, hi, he⟩ := h
    cases he
    simp only [Cell.slotAt?, hc, Cell.slot?] at hs
    obtain ⟨hlt, -⟩ := Array.getElem?_eq_some_iff.mp hs
    simp only [Kind.slots, hc, List.mem_map, List.mem_range]
    exact ⟨i, hlt, rfl⟩
  | .fixed element count, pos, hk, hf, hf', hs, hs', h => by
    simp only [Kind.slots, List.mem_flatMap, List.mem_range] at h ⊢
    obtain ⟨i, hi, h⟩ := h
    exact ⟨i, hi, element.slots_steady _ hk (hf i hi) (hf' i hi) hs hs' h⟩
  | .inline _ fields, pos, hk, hf, hf', hs, hs', h => fields.slots_steady pos hk hf hf' hs hs' h
  | .structs _ fields, pos, hk, ⟨es, hc, hrows⟩, ⟨es', hc', hrows'⟩, hs, hs', h => by
    simp only [Kind.slots, hc', List.mem_flatMap, List.mem_range, List.mem_map] at h
    obtain ⟨i, hi, ⟨b, s'⟩, hb, he⟩ := h
    cases he
    obtain ⟨row, hrow⟩ := Cell.row_of_within hc (Option.isSome_of_eq_some hs)
    obtain ⟨row', hrow'⟩ := Cell.row_of_within hc' (Option.isSome_of_eq_some hs')
    rw [Cell.slotAt?_within hc hrow] at hs
    rw [Cell.slotAt?_within hc' hrow'] at hs'
    rw [Array.getD_eq_getD_getElem?, hrow', Option.getD_some] at hb
    have hin := fields.slots_steady 0 hk (hrows row (Array.mem_of_getElem? hrow)).2
      (hrows' row' (Array.mem_of_getElem? hrow')).2 hs hs' hb
    simp only [Kind.slots, hc, List.mem_flatMap, List.mem_range, List.mem_map]
    obtain ⟨hlt, -⟩ := Array.getElem?_eq_some_iff.mp hrow
    refine ⟨i, hlt, (b, s'), ?_, rfl⟩
    rwa [Array.getD_eq_getD_getElem?, hrow, Option.getD_some]
  | .container spec, pos, hk, ⟨c, hc⟩, ⟨c', hc'⟩, hs, hs', h => by
    simp only [Kind.slots, hc'] at h
    simp only [Kind.slots, hc]
    split at h
    · rename_i collect d hholds hcollect hd
      cases hd
      simp only [hholds, hcollect, List.mem_map] at h ⊢
      obtain ⟨⟨p, s'⟩, hp, he⟩ := h
      cases he
      simp only [Cell.slotAt?, hc] at hs
      simp only [Cell.slotAt?, hc'] at hs'
      exact ⟨(p, s'), hk.2 collect hcollect c c' p s' _ _ hs hs' hp, rfl⟩
    · cases h

theorem Fields.slots_steady {cells cells' : Array Cell} {a : Address} {s : Strength} {g g' : Handle} :
    (fs : Fields) → ∀ (pos : Nat), fs.Honest → fs.FitAt cells pos → fs.FitAt cells' pos →
      Cell.slotAt? cells a = some (some g) → Cell.slotAt? cells' a = some (some g') →
      (a, s) ∈ fs.slots cells' pos → (a, s) ∈ fs.slots cells pos
  | .nil, _, _, _, _, _, _, h => h
  | .cons _ kind rest, pos, hk, hf, hf', hs, hs', h => by
    simp only [Fields.slots, List.mem_append] at h ⊢
    rcases h with h | h
    · exact .inl (kind.slots_steady pos hk.1 hf.1 hf'.1 hs hs' h)
    · exact .inr (rest.slots_steady _ hk.2 hf.2 hf'.2 hs hs' h)

end

/-- A slot that holds a reference in two states of an object is reported alike by a part. -/
theorem Part.slots_steady {o o' : Object} {a : Address} {k : Strength} {g g' : Handle} {p : Part}
    (hp : p.Honest) (hf : p.Fits o.cells) (hf' : p.Fits o'.cells) (hsame : o.Same o')
    (hs : o.slot? a = some (some g)) (hs' : o'.slot? a = some (some g')) (h : (a, k) ∈ p.slots o') :
    (a, k) ∈ p.slots o := by
  cases p with
  | fields base fs => exact fs.slots_steady base hp hf hf' hs hs' h
  | collector f => exact hp o o' a k g g' hsame hs hs' h

mutual

/-- A new field holds no references. -/
theorem Kind.blank_cells : (k : Kind) → k.Honest → ∀ c ∈ k.cells, c.Blank
  | .value, _, c, h | .reference _, _, c, h | .references _, _, c, h | .structs _ _, _, c, h => by
    simp only [Kind.cells, List.mem_singleton] at h
    subst h
    intro p g
    cases p <;> simp [Cell.slot?]
  | .fixed element count, hk, c, h => by
    rw [Kind.cells_fixed, List.mem_flatten] at h
    obtain ⟨l, hl, hc⟩ := h
    rw [List.eq_of_mem_replicate hl] at hc
    exact element.blank_cells hk c hc
  | .inline _ fields, hk, c, h => fields.blank_cells hk c h
  | .container spec, hk, c, h => by
    simp only [Kind.cells, List.mem_singleton] at h
    subst h
    exact hk.1

theorem Fields.blank_cells : (fs : Fields) → fs.Honest → ∀ c ∈ fs.cells, c.Blank
  | .nil, _, c, h => by simp [Fields.cells] at h
  | .cons _ kind rest, hk, c, h => by
    simp only [Fields.cells, List.mem_append] at h
    rcases h with h | h
    · exact kind.blank_cells hk.1 c h
    · exact rest.blank_cells hk.2 c h

end

namespace Cell

theorem mem_bagStrong {c : Cell} {p : Place} : p ∈ c.bagStrong ↔
    ∃ i, p = .strongItem i ∧ (c.slot? p).isSome := by
  cases c with
  | container d =>
    cases d with
    | bag ss ws =>
      simp only [bagStrong, List.mem_map, List.mem_range]
      constructor
      · rintro ⟨i, hi, rfl⟩
        exact ⟨i, rfl, by simp [slot?, hi]⟩
      · rintro ⟨i, rfl, hs⟩
        refine ⟨i, ?_, rfl⟩
        simpa [slot?] using hs
    | sealed =>
      simp only [bagStrong, List.not_mem_nil, false_iff]
      rintro ⟨i, rfl, hs⟩
      simp [slot?] at hs
  | _ =>
    simp only [bagStrong, List.not_mem_nil, false_iff]
    rintro ⟨i, rfl, hs⟩
    simp [slot?] at hs

theorem mem_bagWeak {c : Cell} {p : Place} : p ∈ c.bagWeak ↔
    ∃ i, p = .weakItem i ∧ (c.slot? p).isSome := by
  cases c with
  | container d =>
    cases d with
    | bag ss ws =>
      simp only [bagWeak, List.mem_map, List.mem_range]
      constructor
      · rintro ⟨i, hi, rfl⟩
        exact ⟨i, rfl, by simp [slot?, hi]⟩
      · rintro ⟨i, rfl, hs⟩
        refine ⟨i, ?_, rfl⟩
        simpa [slot?] using hs
    | sealed =>
      simp only [bagWeak, List.not_mem_nil, false_iff]
      rintro ⟨i, rfl, hs⟩
      simp [slot?] at hs
  | _ =>
    simp only [bagWeak, List.not_mem_nil, false_iff]
    rintro ⟨i, rfl, hs⟩
    simp [slot?] at hs

/-- A collector that lists a place of a cell by its kind, whenever the cell has it. -/
theorem steady_of_places {f : CellCollector} (listed : Place → Strength → Prop)
    (h : ∀ c p k, (p, k) ∈ f c ↔ listed p k ∧ (c.slot? p).isSome) : f.Steady := by
  intro c d p k g g' hc _ hd
  rw [h] at hd ⊢
  exact ⟨hd.1, Option.isSome_of_eq_some hc⟩

theorem mem_bagSlots {c : Cell} {p : Place} {k : Strength} : (p, k) ∈ c.bagSlots ↔
    ((∃ i, p = .strongItem i) ∧ k = .strong ∨ (∃ i, p = .weakItem i) ∧ k = .weak)
      ∧ (c.slot? p).isSome := by
  simp only [bagSlots, List.mem_append, List.mem_map, Prod.mk.injEq, mem_bagStrong, mem_bagWeak]
  constructor
  · rintro (⟨q, ⟨i, rfl, hs⟩, rfl, rfl⟩ | ⟨q, ⟨i, rfl, hs⟩, rfl, rfl⟩)
    · exact ⟨.inl ⟨⟨i, rfl⟩, rfl⟩, hs⟩
    · exact ⟨.inr ⟨⟨i, rfl⟩, rfl⟩, hs⟩
  · rintro ⟨⟨⟨i, rfl⟩, rfl⟩ | ⟨⟨i, rfl⟩, rfl⟩, hs⟩
    · exact .inl ⟨_, ⟨i, rfl, hs⟩, rfl, rfl⟩
    · exact .inr ⟨_, ⟨i, rfl, hs⟩, rfl, rfl⟩

theorem steady_bagSlots : bagSlots.Steady :=
  steady_of_places _ fun _ _ _ => mem_bagSlots

end Cell

namespace Object

theorem mem_numberedCells {o : Object} {i : Nat} {c : Cell} :
    (i, c) ∈ o.numberedCells ↔ o.cells[i]? = some c := by
  simp only [numberedCells, List.mem_iff_getElem?, List.getElem?_zip_eq_some,
    Array.getElem?_toList]
  constructor
  · rintro ⟨j, hj, hc⟩
    obtain ⟨hlt, he⟩ := List.getElem?_eq_some_iff.mp hj
    rw [List.getElem_range] at he
    exact he ▸ hc
  · intro hc
    obtain ⟨hlt, -⟩ := Array.getElem?_eq_some_iff.mp hc
    exact ⟨i, by rw [List.getElem?_range hlt], hc⟩

theorem steady_of_cells {f : ObjectCollector} {g : CellCollector}
    (listed : Place → Strength → Prop)
    (hg : ∀ c p k, (p, k) ∈ g c ↔ listed p k ∧ (c.slot? p).isSome)
    (hf : ∀ o a k, (a, k) ∈ f o ↔ ∃ c, o.cells[a.offset]? = some c ∧ (a.place, k) ∈ g c) :
    f.Steady := by
  intro o o' a k g g' _ hs _ h
  obtain ⟨c', -, hc'⟩ := (hf o' a k).mp h
  simp only [slot?, Cell.slotAt?] at hs
  cases hc : o.cells[a.offset]? with
  | none => simp [hc] at hs
  | some c =>
    rw [hc] at hs
    refine (hf o a k).mpr ⟨c, hc, (hg c a.place k).mpr ⟨((hg c' a.place k).mp hc').1, ?_⟩⟩
    exact Option.isSome_of_eq_some hs

theorem mem_report {offset : Nat} {found : List (Place × Strength)} {a : Address} {k : Strength} :
    (a, k) ∈ report offset found ↔ a.offset = offset ∧ (a.place, k) ∈ found := by
  simp only [report, List.mem_map, Prod.mk.injEq]
  constructor
  · rintro ⟨⟨p, s⟩, hp, rfl, rfl⟩
    exact ⟨rfl, hp⟩
  · rintro ⟨rfl, hp⟩
    exact ⟨(a.place, k), hp, rfl, rfl⟩

theorem steady_bagSlots : bagSlots.Steady := by
  refine steady_of_cells (g := Cell.bagSlots) _ (fun _ _ _ => Cell.mem_bagSlots) ?_
  intro o a k
  simp only [bagSlots, List.mem_flatMap, Prod.exists, mem_report, mem_numberedCells]
  constructor
  · rintro ⟨i, c, hc, rfl, hp⟩
    exact ⟨c, hc, hp⟩
  · rintro ⟨c, hc, hp⟩
    exact ⟨_, c, hc, rfl, hp⟩

end Object

end TracingHeap

import TracingHeap.Proofs.Object.Slots
import TracingHeap.Schema.Basic

namespace TracingHeap

mutual

/-- The cells from `pos` on are those of a field of this kind. -/
def Kind.FitsAt (cells : Array Cell) (pos : Nat) : Kind → Prop
  | .value => ∃ n, cells[pos]? = some (.value n)
  | .reference _ => ∃ s, cells[pos]? = some (.ref s)
  | .references _ => ∃ ss, cells[pos]? = some (.refs ss)
  | .fixed element count => ∀ i < count, element.FitsAt cells (pos + i * element.width)
  | .inline _ fields => fields.FitAt cells pos
  | .structs _ fields => ∃ es, cells[pos]? = some (.structs es) ∧
      ∀ row ∈ es, row.size = fields.width ∧ fields.FitAt row 0
  | .container _ => ∃ c, cells[pos]? = some (.container c)

def Fields.FitAt (cells : Array Cell) (pos : Nat) : Fields → Prop
  | .nil => True
  | .cons _ kind rest => kind.FitsAt cells pos ∧ rest.FitAt cells (pos + kind.width)

end

/-- A change of cells that leaves their kinds, and the rows inside them, as they are. -/
structure ShapeKept (f : Cell → Cell) : Prop where
  value : ∀ n, ∃ m, f (.value n) = .value m
  ref : ∀ s, ∃ s', f (.ref s) = .ref s'
  refs : ∀ ss, ∃ ss', f (.refs ss) = .refs ss'
  container : ∀ c, ∃ c', f (.container c) = .container c'
  structs : ∀ es, ∃ es', f (.structs es) = .structs es' ∧
    ∀ fields : Fields, (∀ row ∈ es, row.size = fields.width ∧ fields.FitAt row 0) →
      ∀ row ∈ es', row.size = fields.width ∧ fields.FitAt row 0

theorem getElem?_modify_of_some {cells : Array Cell} {f : Cell → Cell} {i j : Nat} {c : Cell}
    (h : cells[i]? = some c) :
    (cells.modify j f)[i]? = some (if j = i then f c else c) := by
  rw [Array.getElem?_modify]
  split <;> simp [h]

mutual

theorem Kind.fitsAt_modify {f : Cell → Cell} (hf : ShapeKept f) {cells : Array Cell} {pos : Nat}
    (j : Nat) : (k : Kind) → k.FitsAt cells pos → k.FitsAt (cells.modify j f) pos
  | .value, ⟨n, hn⟩ => by
    rw [Kind.FitsAt, getElem?_modify_of_some hn]
    split
    · obtain ⟨m, hm⟩ := hf.value n
      exact ⟨m, congrArg some hm⟩
    · exact ⟨n, rfl⟩
  | .reference _, ⟨s, hs⟩ => by
    rw [Kind.FitsAt, getElem?_modify_of_some hs]
    split
    · obtain ⟨s', hs'⟩ := hf.ref s
      exact ⟨s', congrArg some hs'⟩
    · exact ⟨s, rfl⟩
  | .references _, ⟨ss, hs⟩ => by
    rw [Kind.FitsAt, getElem?_modify_of_some hs]
    split
    · obtain ⟨ss', hs'⟩ := hf.refs ss
      exact ⟨ss', congrArg some hs'⟩
    · exact ⟨ss, rfl⟩
  | .fixed element count, h => fun i hi => element.fitsAt_modify hf j (h i hi)
  | .inline _ fields, h => fields.fitAt_modify hf j h
  | .structs _ fields, ⟨es, he, hrows⟩ => by
    rw [Kind.FitsAt, getElem?_modify_of_some he]
    split
    · obtain ⟨es', he', hkeep⟩ := hf.structs es
      exact ⟨es', congrArg some he', hkeep fields hrows⟩
    · exact ⟨es, rfl, hrows⟩
  | .container _, ⟨c, hc⟩ => by
    rw [Kind.FitsAt, getElem?_modify_of_some hc]
    split
    · obtain ⟨c', hc'⟩ := hf.container c
      exact ⟨c', congrArg some hc'⟩
    · exact ⟨c, rfl⟩

theorem Fields.fitAt_modify {f : Cell → Cell} (hf : ShapeKept f) {cells : Array Cell} {pos : Nat}
    (j : Nat) : (fs : Fields) → fs.FitAt cells pos → fs.FitAt (cells.modify j f) pos
  | .nil, _ => trivial
  | .cons _ kind rest, h => ⟨kind.fitsAt_modify hf j h.1, rest.fitAt_modify hf j h.2⟩

end

theorem ShapeKept.hold (target : Slot) : ShapeKept (·.hold target) :=
  ⟨fun n => ⟨n, rfl⟩, fun _ => ⟨target, rfl⟩, fun ss => ⟨ss.push target, rfl⟩,
    fun c => ⟨c, rfl⟩, fun es => ⟨es, rfl, fun _ h => h⟩⟩

/-- Nulling a slot keeps the shape. A place inside a struct array leads to a place in a row, so the
induction is on the place. -/
theorem ShapeKept.clear (p : Place) : ShapeKept (·.clear p) := by
  induction p with
  | element i offset rest ih =>
    refine ⟨fun n => ⟨n, rfl⟩, fun s => ⟨s, rfl⟩, fun ss => ⟨ss, rfl⟩, fun c => ⟨c, rfl⟩, ?_⟩
    intro es
    refine ⟨_, rfl, fun fields hrows row hrow => ?_⟩
    obtain ⟨k, hk⟩ := Array.mem_iff_getElem?.mp hrow
    rw [Array.getElem?_modify] at hk
    split at hk
    · obtain ⟨old, ho, rfl⟩ := Option.map_eq_some_iff.mp hk
      obtain ⟨hs, hfit⟩ := hrows old (Array.mem_of_getElem? ho)
      exact ⟨by simpa using hs, fields.fitAt_modify ih offset hfit⟩
    · exact hrows row (Array.mem_of_getElem? hk)
  | here =>
    exact ⟨fun n => ⟨n, rfl⟩, fun _ => ⟨none, rfl⟩, fun ss => ⟨ss, rfl⟩, fun c => ⟨c, rfl⟩,
      fun es => ⟨es, rfl, fun _ h => h⟩⟩
  | item i =>
    exact ⟨fun n => ⟨n, rfl⟩, fun s => ⟨s, rfl⟩, fun ss => ⟨ss.setIfInBounds i none, rfl⟩,
      fun c => ⟨c, rfl⟩, fun es => ⟨es, rfl, fun _ h => h⟩⟩
  | strongItem i | weakItem i =>
    refine ⟨fun n => ⟨n, rfl⟩, fun s => ⟨s, rfl⟩, fun ss => ⟨ss, rfl⟩, fun c => ?_,
      fun es => ⟨es, rfl, fun _ h => h⟩⟩
    cases c <;> exact ⟨_, rfl⟩

mutual

theorem Kind.length_cells : (k : Kind) → k.cells.length = k.width
  | .value | .reference _ | .references _ | .structs _ _ | .container _ => rfl
  | .fixed element count => by
    simp only [Kind.cells, Kind.width]
    split
    · rename_i h
      simp [h]
    · simp [List.length_flatten, element.length_cells, Nat.mul_comm]
  | .inline _ fields => fields.length_cells

theorem Fields.length_cells : (fs : Fields) → fs.cells.length = fs.width
  | .nil => rfl
  | .cons _ kind rest => by
    simp [Fields.cells, Fields.width, kind.length_cells, rest.length_cells]

end

/-- Elements without cells may be passed over: there is nothing to repeat. -/
theorem Kind.cells_fixed (element : Kind) (count : Nat) :
    (Kind.fixed element count).cells = (List.replicate count element.cells).flatten := by
  simp only [Kind.cells]
  split
  · rename_i h
    symm
    apply List.eq_nil_of_length_eq_zero
    simp [List.length_flatten, element.length_cells, Nat.mul_comm count, h]
  · rfl

mutual

/-- The cells of a new field fit wherever they are put. -/
theorem Kind.fitsAt_cells (pre post : List Cell) :
    (k : Kind) → k.FitsAt (pre ++ k.cells ++ post).toArray pre.length
  | .value => ⟨0, by simp [Kind.cells]⟩
  | .reference _ => ⟨none, by simp [Kind.cells]⟩
  | .references _ => ⟨#[], by simp [Kind.cells]⟩
  | .structs _ _ => ⟨#[], by simp [Kind.cells], by simp⟩
  | .container spec => ⟨spec.contents, by simp [Kind.cells]⟩
  | .inline _ fields => fields.fitAt_cells pre post
  | .fixed element count => by
    intro i hi
    rw [Kind.cells_fixed]
    obtain ⟨n, rfl⟩ : ∃ n, count = i + (1 + n) := ⟨count - i - 1, by omega⟩
    have h := element.fitsAt_cells (pre ++ (List.replicate i element.cells).flatten)
      ((List.replicate n element.cells).flatten ++ post)
    have hl : (pre ++ (List.replicate i element.cells).flatten).length
        = pre.length + i * element.width := by
      simp [List.length_flatten, element.length_cells]
    rw [hl] at h
    simpa [← List.replicate_append_replicate, List.replicate_succ] using h

theorem Fields.fitAt_cells (pre post : List Cell) :
    (fs : Fields) → fs.FitAt (pre ++ fs.cells ++ post).toArray pre.length
  | .nil => trivial
  | .cons _ kind rest => by
    constructor
    · simpa [Fields.cells] using kind.fitsAt_cells pre (rest.cells ++ post)
    · have h := rest.fitAt_cells (pre ++ kind.cells) post
      simpa [Fields.cells, kind.length_cells] using h

end

end TracingHeap

import TracingHeap.Proofs.Schema.Lineage

namespace TracingHeap

mutual

def Kind.leaves : Kind → List Kind
  | .fixed element count => (List.replicate count element.leaves).flatten
  | .inline _ fields => fields.leaves
  | k => [k]

def Fields.leaves : Fields → List Kind
  | .nil => []
  | .cons _ kind rest => kind.leaves ++ rest.leaves

end

mutual

theorem Kind.length_leaves : (k : Kind) → k.leaves.length = k.width
  | .value | .reference _ | .references _ | .structs _ _ | .container _ => rfl
  | .fixed element count => by
    simp [Kind.leaves, Kind.width, List.length_flatten, element.length_leaves, Nat.mul_comm]
  | .inline _ fields => fields.length_leaves

theorem Fields.length_leaves : (fs : Fields) → fs.leaves.length = fs.width
  | .nil => rfl
  | .cons _ kind rest => by
    simp [Fields.leaves, Fields.width, kind.length_leaves, rest.length_leaves]

end

def Kind.Takes : Kind → Cell → Prop
  | .value, .value _ | .reference _, .ref _ | .references _, .refs _ | .structs _ _, .structs _
  | .container _, .container _ => True
  | _, _ => False

/-- Rows that agree do so when repeated. -/
theorem forall₂_flatten_replicate {α β : Type} {R : α → β → Prop} {as : List α} {bs : List β}
    (h : List.Forall₂ R as bs) (n : Nat) :
    List.Forall₂ R (List.replicate n as).flatten (List.replicate n bs).flatten := by
  induction n with
  | zero => exact .nil
  | succ n ih =>
    rw [List.replicate_succ, List.replicate_succ, List.flatten_cons, List.flatten_cons]
    exact List.rel_append h ih

mutual

/-- A new field has just the cells of its kind. -/
theorem Kind.takes_cells : (k : Kind) → List.Forall₂ Kind.Takes k.leaves k.cells
  | .value | .reference _ | .references _ | .structs _ _ | .container _ => .cons trivial .nil
  | .fixed element count => by
    rw [Kind.cells_fixed]
    exact forall₂_flatten_replicate element.takes_cells count
  | .inline _ fields => fields.takes_cells

theorem Fields.takes_cells : (fs : Fields) → List.Forall₂ Kind.Takes fs.leaves fs.cells
  | .nil => .nil
  | .cons _ kind rest => List.rel_append kind.takes_cells rest.takes_cells

end

def Fields.placed (pos : Nat) : Fields → List (Nat × Kind)
  | .nil => []
  | .cons _ kind rest => (pos, kind) :: rest.placed (pos + kind.width)

/-- The fields lie one after the other, without gaps, from `pos` on. -/
def Consecutive : Nat → List (Nat × Kind) → Prop
  | _, [] => True
  | pos, p :: rest => p.1 = pos ∧ Consecutive (pos + p.2.width) rest

namespace Consecutive

variable {pos : Nat} {l m : List (Nat × Kind)} {p : Nat × Kind}

theorem placed : (fs : Fields) → ∀ pos, Consecutive pos (fs.placed pos)
  | .nil, _ => trivial
  | .cons _ kind rest, pos => ⟨rfl, placed rest (pos + kind.width)⟩

theorem append (hl : Consecutive pos l)
    (hm : Consecutive (pos + (l.map (·.2.width)).sum) m) : Consecutive pos (l ++ m) := by
  induction l generalizing pos with
  | nil => exact hm
  | cons q rest ih =>
    refine ⟨hl.1, ih hl.2 ?_⟩
    rwa [Nat.add_assoc]

/-- Together they take every cell once. -/
theorem ranges (hl : Consecutive pos l) :
    l.flatMap (fun p => List.range' p.1 p.2.width) = List.range' pos (l.map (·.2.width)).sum := by
  induction l generalizing pos with
  | nil => rfl
  | cons q rest ih =>
    rw [List.flatMap_cons, ih hl.2, hl.1]
    exact List.range'_append_1 ..

theorem le_of_mem (hl : Consecutive pos l) (hp : p ∈ l) : pos ≤ p.1 := by
  induction l generalizing pos with
  | nil => cases hp
  | cons q rest ih =>
    rcases List.mem_cons.mp hp with rfl | hp
    · exact Nat.le_of_eq hl.1.symm
    · exact Nat.le_trans (Nat.le_add_right ..) (ih hl.2 hp)

/-- What a field has in the row of them all begins at its offset. -/
theorem slice {α : Type} {f : Kind → List α} (hf : ∀ k, (f k).length = k.width)
    (hl : Consecutive pos l) (hp : p ∈ l) :
    ((l.flatMap fun q => f q.2).drop (p.1 - pos)).take p.2.width = f p.2 := by
  induction l generalizing pos with
  | nil => cases hp
  | cons q rest ih =>
    rw [List.flatMap_cons]
    rcases List.mem_cons.mp hp with rfl | hp
    · simp [hl.1, ← hf p.2]
    · have hle := le_of_mem hl.2 hp
      have hdrop : p.1 - pos = (f q.2).length + (p.1 - (pos + q.2.width)) := by
        rw [hf]
        omega
      rw [hdrop, ← List.drop_drop, List.drop_left]
      exact ih hl.2 hp

end Consecutive

namespace Fields

theorem sum_placed : (fs : Fields) → ∀ pos, ((fs.placed pos).map (·.2.width)).sum = fs.width
  | .nil, _ => rfl
  | .cons _ kind rest, pos => by
    simp [placed, width, rest.sum_placed]

theorem cells_placed : (fs : Fields) → ∀ pos, (fs.placed pos).flatMap (·.2.cells) = fs.cells
  | .nil, _ => rfl
  | .cons _ kind rest, pos => by
    simp [placed, cells, rest.cells_placed]

theorem leaves_placed : (fs : Fields) → ∀ pos, (fs.placed pos).flatMap (·.2.leaves) = fs.leaves
  | .nil, _ => rfl
  | .cons _ kind rest, pos => by
    simp [placed, leaves, rest.leaves_placed]

end Fields

namespace Schema

variable {s : Schema} {id : ClassId} {e : ClassEntry} {cells : Array Cell}

/-- The fields that a class and its superclasses declare, with the offsets at which they lie: those of
each class from its base on. -/
def placed (s : Schema) (id : ClassId) : List (Nat × Kind) :=
  ((s.ancestry id).reverse.filterMap s.get?).flatMap fun c => c.spec.fields.placed c.base

theorem placed_root (h : s.get? id = some e) (hs : e.spec.superclass = none) :
    s.placed id = e.spec.fields.placed e.base := by
  rw [placed, ancestry, h]
  simp [hs, h]

theorem placed_child {p : ClassId} (h : s.get? id = some e) (hs : e.spec.superclass = some p)
    (hp : p.index < id.index) : s.placed id = s.placed p ++ e.spec.fields.placed e.base := by
  rw [placed, ancestry, h]
  simp [hs, hp, h, placed, List.filterMap_append]

theorem Layered.sum_placed (hs : s.Layered) : ∀ id e, s.get? id = some e →
    ((s.placed id).map (·.2.width)).sum = e.width := by
  refine hs.induct ?_ ?_
  · intro id e he hsup hl
    obtain ⟨-, hbase, hwidth, -⟩ := layOut_ok hl
    rw [placed_root he hsup, Fields.sum_placed, hwidth, hbase]
    simp
  · intro id e p q he hsup hlt hq hl ih
    obtain ⟨-, hbase, hwidth, -⟩ := layOut_ok hl
    rw [placed_child he hsup hlt, List.map_append, List.sum_append, ih, Fields.sum_placed, hwidth, hbase]
    rfl

/-- Every class begins where its superclass ends. -/
theorem Layered.consecutive (hs : s.Layered) : ∀ id e, s.get? id = some e →
    Consecutive 0 (s.placed id) := by
  refine hs.induct ?_ ?_
  · intro id e he hsup hl
    have hbase : e.base = 0 := (layOut_ok hl).2.1
    rw [placed_root he hsup, hbase]
    exact .placed ..
  · intro id e p q he hsup hlt hq hl ih
    have hbase : e.base = q.width := (layOut_ok hl).2.1
    rw [placed_child he hsup hlt]
    refine ih.append ?_
    rw [hs.sum_placed p q hq, Nat.zero_add, hbase]
    exact .placed ..

theorem Layered.newCells_eq (hs : s.Layered) : ∀ id e, s.get? id = some e →
    s.newCells id = (s.placed id).flatMap (·.2.cells) := by
  refine hs.induct ?_ ?_
  · intro id e he hsup _
    rw [newCells_root he hsup, placed_root he hsup, Fields.cells_placed]
  · intro id e p q he hsup hlt hq _ ih
    rw [newCells_child he hsup hlt, placed_child he hsup hlt, List.flatMap_append, ih,
      Fields.cells_placed]

/-- A new object can be made as long as its cells fit into the memory. -/
theorem instantiate_eq (he : s.get? id = some e) :
    s.instantiate id = if e.width * cellBytes < memoryLimit then .ok (s.newCells id).toArray
      else .error (.fault .capacity) := by
  have hget : s.get id = .ok e := by rw [get, he]
  have hsteps : s.instantiate id = ((reserve e.width cellBytes).mapError Failure.fault).bind
      fun _ => .ok (s.newCells id).toArray := by
    unfold instantiate
    rw [hget]
    rfl
  rw [hsteps, reserve]
  split
  · rfl
  · rfl

end Schema

end TracingHeap

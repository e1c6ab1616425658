import TracingHeap.Proofs.Schema.FieldPlaces

namespace TracingHeap

namespace TokenStream

/-- The tokens from index `i` up to `stop` lead to cells of their kinds in a row that is given by the kinds
of its cells; offsets count from `base`. A scope ends at a return token, and the end token is the last. -/
def Lands (ts : TokenStream) (row : List Kind) (base i stop : Nat) : Prop :=
  if _ : i < stop then
    match ts.token? i with
    | some (.reference offset s) =>
      row[base + offset]? = some (.reference s) ∧ ts.Lands row base (i + 1) stop
    | some (.references offset s) =>
      row[base + offset]? = some (.references s) ∧ ts.Lands row base (i + 1) stop
    | some (.fixed offset stride count skip) =>
      if _ : i < skip ∧ skip ≤ stop then
        (∀ e < count, ts.Lands row (base + offset + e * stride) (i + 1) (skip - 1)) ∧
          ts.token? (skip - 1) = some .ret ∧ ts.Lands row base skip stop
      else False
    | some (.structs offset skip) =>
      if _ : i < skip ∧ skip ≤ stop then
        (∃ name fields, row[base + offset]? = some (.structs name fields) ∧
            ts.Lands fields.leaves 0 (i + 1) (skip - 1)) ∧
          ts.token? (skip - 1) = some .ret ∧ ts.Lands row base skip stop
      else False
    | some (.container offset collector) =>
      (∃ spec : ContainerSpec, row[base + offset]? = some (.container spec) ∧
          spec.holdsReferences = true ∧ spec.collector = some collector) ∧
        ts.Lands row base (i + 1) stop
    | some (.object _) => ts.Lands row base (i + 1) stop
    | some .stop => i + 1 = stop
    | some .ret | none => False
  else True
termination_by stop - i

variable {ts : TokenStream} {row : List Kind} {base start stop : Nat}

theorem lands_self : ts.Lands row base stop stop := by
  rw [Lands]
  simp

end TokenStream

def StandAt (row : List Kind) (pos : Nat) (kinds : List Kind) : Prop :=
  ∀ j k, kinds[j]? = some k → row[pos + j]? = some k

namespace StandAt

variable {row kinds more : List Kind} {pos : Nat} {k : Kind}

theorem between (before kinds more : List Kind) :
    StandAt (before ++ kinds ++ more) before.length kinds := by
  intro j k hk
  obtain ⟨hlt, -⟩ := List.getElem?_eq_some_iff.mp hk
  rw [List.append_assoc, List.getElem?_append_right (by omega), Nat.add_sub_cancel_left,
    List.getElem?_append_left hlt, hk]

theorem refl (row : List Kind) : StandAt row 0 row := by
  simpa using between [] row []

theorem head (h : StandAt row pos (k :: kinds)) : row[pos]? = some k := h 0 k rfl

theorem left (h : StandAt row pos (kinds ++ more)) : StandAt row pos kinds := by
  intro j k hk
  obtain ⟨hlt, -⟩ := List.getElem?_eq_some_iff.mp hk
  exact h j k (by rwa [List.getElem?_append_left hlt])

theorem right (h : StandAt row pos (kinds ++ more)) : StandAt row (pos + kinds.length) more := by
  intro j k hk
  rw [Nat.add_assoc]
  exact h _ k (by rwa [List.getElem?_append_right (by omega), Nat.add_sub_cancel_left])

/-- The elements of an array stand one behind the other. -/
theorem element {n e : Nat} (h : StandAt row pos (List.replicate n kinds).flatten) (he : e < n) :
    StandAt row (pos + e * kinds.length) kinds := by
  obtain ⟨m, rfl⟩ : ∃ m, n = e + (1 + m) := ⟨n - e - 1, by omega⟩
  rw [← List.replicate_append_replicate, List.flatten_append, Nat.add_comm 1, List.replicate_succ,
    List.flatten_cons] at h
  simpa [List.length_flatten] using h.right.left

end StandAt

open TokenStream

section

variable {ts : TokenStream} {row : List Kind} {start stop base offset count : Nat} {origin : Origin}
  {inner : List Entry}

/-- An array scope: its tokens lead to cells of their kinds in every element. -/
theorem lands_fixed {stride : Nat} {close : Origin}
    (hts : ts.HasAt start (⟨.fixed offset stride count (start + inner.length + 2), origin⟩ ::
      inner ++ [⟨.ret, close⟩]))
    (hstop : start + inner.length + 2 ≤ stop)
    (hbody : ∀ e < count, ts.Lands row (base + offset + e * stride) (start + 1)
      (start + 1 + inner.length))
    (hrest : ts.Lands row base (start + inner.length + 2) stop) : ts.Lands row base start stop := by
  have hlast : start + inner.length + 2 - 1 = start + 1 + inner.length := by omega
  have hscope : start < start + inner.length + 2 ∧ start + inner.length + 2 ≤ stop :=
    ⟨by omega, hstop⟩
  have hret : ts.token? (start + 1 + inner.length) = some .ret := hts.tail.right.head
  rw [Lands]
  simp only [show start < stop by omega, dif_pos, hts.head, hscope, and_self, hlast]
  exact ⟨hbody, hret, hrest⟩

/-- The scope of a struct array: its tokens lead to cells of their kinds in every row. -/
theorem lands_structs {name : String} {fields : Fields} {close : Origin}
    (hts : ts.HasAt start (⟨.structs offset (start + inner.length + 2), origin⟩ ::
      inner ++ [⟨.ret, close⟩]))
    (hstop : start + inner.length + 2 ≤ stop)
    (hrow : row[base + offset]? = some (.structs name fields))
    (hbody : ts.Lands fields.leaves 0 (start + 1) (start + 1 + inner.length))
    (hrest : ts.Lands row base (start + inner.length + 2) stop) : ts.Lands row base start stop := by
  have hlast : start + inner.length + 2 - 1 = start + 1 + inner.length := by omega
  have hscope : start < start + inner.length + 2 ∧ start + inner.length + 2 ≤ stop :=
    ⟨by omega, hstop⟩
  have hret : ts.token? (start + 1 + inner.length) = some .ret := hts.tail.right.head
  rw [Lands]
  simp only [show start < stop by omega, dif_pos, hts.head, hscope, and_self, hlast]
  exact ⟨⟨name, fields, hrow, hbody⟩, hret, hrest⟩

end

variable {ts : TokenStream}

mutual

/-- The tokens of a field lead to its own cells. -/
theorem Kind.lands_emit (className : String) : (k : Kind) → ∀ (field : String)
    (start offset base stop : Nat) (row : List Kind),
    ts.HasAt start (k.emit className field start offset) → StandAt row (base + offset) k.leaves →
    start + (k.emit className field start offset).length ≤ stop →
    ts.Lands row base (start + (k.emit className field start offset).length) stop →
    ts.Lands row base start stop
  | .value, _, _, _, _, _, _, _, _, _, hrest => hrest
  | .reference s, field, start, offset, base, stop, row, hts, hrow, hstop, hrest => by
    have hlt : start < stop := by simp [Kind.emit] at hstop; omega
    rw [Lands]
    simp only [hlt, dif_pos, hts.head]
    exact ⟨hrow.head, hrest⟩
  | .references s, field, start, offset, base, stop, row, hts, hrow, hstop, hrest => by
    have hlt : start < stop := by simp [Kind.emit] at hstop; omega
    rw [Lands]
    simp only [hlt, dif_pos, hts.head]
    exact ⟨hrow.head, hrest⟩
  | .inline _ fields, field, start, offset, base, stop, row, hts, hrow, hstop, hrest =>
    fields.lands_emit className _ start offset base stop row hts hrow hstop hrest
  | .container spec, field, start, offset, base, stop, row, hts, hrow, hstop, hrest => by
    simp only [Kind.emit] at hts hstop hrest
    split at hts
    · rename_i collect hholds hcollect
      have hlt : start < stop := by simp [hholds, hcollect] at hstop; omega
      simp only [hholds, hcollect] at hrest
      rw [Lands]
      simp only [hlt, dif_pos, hts.head]
      exact ⟨⟨spec, hrow.head, hholds, hcollect⟩, hrest⟩
    · rename_i hnone
      split at hrest
      · rename_i h1 h2
        exact absurd h2 (hnone _ h1)
      · exact hrest
  | .fixed element count, field, start, offset, base, stop, row, hts, hrow, hstop, hrest => by
    simp only [Kind.emit] at hts hstop hrest
    split at hts
    · rename_i hskip
      rwa [if_pos hskip] at hrest
    · rename_i hskip
      rw [if_neg hskip] at hstop hrest
      split at hts
      · rename_i hone
        rw [if_pos hone] at hstop hrest
        subst hone
        have hrow : StandAt row (base + offset) element.leaves := by
          simpa [Kind.leaves] using hrow
        exact element.lands_emit className field start offset base stop row hts hrow hstop hrest
      · rename_i hone
        rw [if_neg hone, scope_length] at hstop hrest
        refine lands_fixed hts hstop (fun e he => ?_) hrest
        have hat : StandAt row (base + offset + e * element.width + 0) element.leaves := by
          rw [Nat.add_zero, ← element.length_leaves]
          exact hrow.element he
        exact element.lands_emit className field (start + 1) 0 _ _ row hts.tail.left hat
          (Nat.le_refl _) lands_self
  | .structs name fields, field, start, offset, base, stop, row, hts, hrow, hstop, hrest => by
    simp only [Kind.emit] at hts hstop hrest
    split at hts
    · rename_i hholds
      rw [if_pos hholds, scope_length] at hstop hrest
      refine lands_structs hts hstop hrow.head ?_ hrest
      exact fields.lands_emit className _ (start + 1) 0 0 _ fields.leaves hts.tail.left (.refl _)
        (Nat.le_refl _) lands_self
    · rename_i hholds
      rwa [if_neg hholds] at hrest

theorem Fields.lands_emit (className : String) : (fs : Fields) → ∀ (path : String)
    (start offset base stop : Nat) (row : List Kind),
    ts.HasAt start (fs.emit className path start offset) → StandAt row (base + offset) fs.leaves →
    start + (fs.emit className path start offset).length ≤ stop →
    ts.Lands row base (start + (fs.emit className path start offset).length) stop →
    ts.Lands row base start stop
  | .nil, _, _, _, _, _, _, _, _, _, hrest => hrest
  | .cons name kind rest, path, start, offset, base, stop, row, hts, hrow, hstop, hrest => by
    simp only [Fields.emit, List.length_append] at hts hstop hrest
    have hothers : StandAt row (base + (offset + kind.width)) rest.leaves := by
      rw [← Nat.add_assoc, ← kind.length_leaves]
      exact hrow.right
    refine kind.lands_emit className (path ++ name) start offset base stop row hts.left hrow.left
      (by omega) ?_
    refine rest.lands_emit className path _ (offset + kind.width) base stop row hts.right hothers
      (by omega) ?_
    rwa [Nat.add_assoc]

end

/-- The tokens of a class lead to the cells of its parts. -/
theorem Spells.lands {row : List Kind} {start stop : Nat} {es : List Entry} {ps : List Part}
    (h : Spells start es ps) (hts : ts.HasAt start es)
    (hrow : ∀ base fs, Part.fields base fs ∈ ps → StandAt row base fs.leaves)
    (hstop : start + es.length ≤ stop) (hrest : ts.Lands row 0 (start + es.length) stop) :
    ts.Lands row 0 start stop := by
  induction h with
  | nil => exact hrest
  | @fields className start base fs es ps rest ih =>
    rw [List.length_append, ← Nat.add_assoc] at hstop hrest
    have hown : StandAt row (0 + base) fs.leaves := by
      rw [Nat.zero_add]
      exact hrow base fs (List.mem_cons_self ..)
    refine fs.lands_emit className "" start base 0 stop row hts.left hown (by omega) ?_
    exact ih hts.right (fun b f hm => hrow b f (List.mem_cons_of_mem _ hm)) hstop hrest
  | @collector origin start f es ps rest ih =>
    rw [List.length_cons] at hstop hrest
    rw [Lands]
    simp only [show start < stop by omega, dif_pos, hts.head]
    refine ih hts.tail (fun b g hm => hrow b g (List.mem_cons_of_mem _ hm)) (by omega) ?_
    rwa [Nat.add_assoc, Nat.add_comm 1]

/-- A stream that renders an outline leads to the cells of its parts, up to its end. -/
theorem TokenStream.Renders.lands {row : List Kind} {ps : List Part} (h : ts.Renders ps)
    (hrow : ∀ base fs, Part.fields base fs ∈ ps → StandAt row base fs.leaves) :
    ts.Lands row 0 0 ts.size := by
  obtain ⟨es, last, he, hlast, hes⟩ := h
  have hts : ts.HasAt 0 (es ++ [last]) := by
    intro j e hj
    rw [he, Nat.zero_add]
    simpa using hj
  have hsize : ts.size = es.length + 1 := by simp [size, he]
  refine hes.lands hts.left hrow (by omega) ?_
  rw [Lands, hts.right.head, hlast, Nat.zero_add, hsize]
  simp

namespace Schema

variable {s : Schema} {id : ClassId} {e : ClassEntry}

def leaves (s : Schema) (id : ClassId) : List Kind := (s.placed id).flatMap (·.2.leaves)

theorem leaves_root (he : s.get? id = some e) (hs : e.spec.superclass = none) :
    s.leaves id = e.spec.fields.leaves := by
  rw [leaves, placed_root he hs, Fields.leaves_placed]

theorem leaves_child {p : ClassId} (he : s.get? id = some e) (hs : e.spec.superclass = some p)
    (hp : p.index < id.index) : s.leaves id = s.leaves p ++ e.spec.fields.leaves := by
  rw [leaves, placed_child he hs hp, List.flatMap_append, Fields.leaves_placed]
  rfl

theorem Layered.length_leaves (hs : s.Layered) (he : s.get? id = some e) :
    (s.leaves id).length = e.width := by
  simp only [leaves, List.length_flatMap, Kind.length_leaves]
  exact hs.sum_placed id e he

/-- The fields of every class stand in the row at the base of the class. -/
theorem Layered.standAt (hs : s.Layered) : ∀ id e, s.get? id = some e →
    ∀ more base fs, Part.fields base fs ∈ s.outline id → StandAt (s.leaves id ++ more) base fs.leaves := by
  refine hs.induct ?_ ?_
  · intro id e he hsup hl more base fs hm
    rw [outline_root he hsup] at hm
    rw [leaves_root he hsup]
    rcases Part.mem_extend hm with hm | hm | ⟨f, -, hm⟩
    · cases hm
    · cases hm
      have hbase : e.base = 0 := (layOut_ok hl).2.1
      rw [hbase]
      exact .between [] _ more
    · cases hm
  · intro id e p q he hsup hlt hq hl ih more base fs hm
    rw [outline_child he hsup hlt] at hm
    rw [leaves_child he hsup hlt]
    rcases Part.mem_extend hm with hm | hm | ⟨f, -, hm⟩
    · rw [List.append_assoc]
      exact ih _ base fs hm
    · cases hm
      have hbase : e.base = q.width := (layOut_ok hl).2.1
      rw [hbase, ← hs.length_leaves hq]
      exact .between _ _ more
    · cases hm

/-- Every token of a class leads to a cell of its kind. -/
theorem Layered.lands (hs : s.Layered) (he : s.get? id = some e) {ts : TokenStream}
    (hts : e.stream = .ok ts) : ts.Lands (s.leaves id) 0 0 ts.size := by
  refine (hs.renders id e he ts hts).lands fun base fs hm => ?_
  have hstand := hs.standAt id e he [] base fs hm
  rwa [List.append_nil] at hstand

/-- A class begins where its superclass ends, and the fields that the two and all further superclasses
declare take every cell of it once. -/
structure LaidOut (s : Schema) (id : ClassId) (e : ClassEntry) : Prop where
  root : e.spec.superclass = none → e.base = 0
  child : ∀ p, e.spec.superclass = some p → ∃ q, s.get? p = some q ∧ e.base = q.width
  width : e.width = ((s.placed id).map (·.2.width)).sum
  ranges : (s.placed id).flatMap (fun p => List.range' p.1 p.2.width) = List.range e.width

theorem Layered.width_eq (hs : s.Layered) (he : s.get? id = some e) :
    e.width = e.base + e.spec.fields.width := by
  have hbuilt := (hs.built id e he).laidOut
  split at hbuilt
  · exact (layOut_ok hbuilt).2.2.1
  · obtain ⟨-, q, -, hl⟩ := hbuilt
    exact (layOut_ok hl).2.2.1

theorem Layered.laidOut (hs : s.Layered) (he : s.get? id = some e) : s.LaidOut id e := by
  have hsum := hs.sum_placed id e he
  have hbuilt := (hs.built id e he).laidOut
  refine ⟨fun hsup => ?_, fun p hsup => ?_, hsum.symm, ?_⟩
  · rw [hsup] at hbuilt
    exact (layOut_ok hbuilt).2.1
  · rw [hsup] at hbuilt
    obtain ⟨-, q, hq, hl⟩ := hbuilt
    exact ⟨q, hq, (layOut_ok hl).2.1⟩
  · rw [(hs.consecutive id e he).ranges, hsum, List.range_eq_range']

/-- The cells of a new object, field by field, are those that the fields declare. -/
theorem Layered.takes_slice (hs : s.Layered) (he : s.get? id = some e) {p : Nat × Kind}
    (hp : p ∈ s.placed id) :
    List.Forall₂ Kind.Takes p.2.leaves (((s.newCells id).drop p.1).take p.2.width) := by
  have hslice := (hs.consecutive id e he).slice Kind.length_cells hp
  rw [← hs.newCells_eq id e he, Nat.sub_zero] at hslice
  rw [hslice]
  exact p.2.takes_cells

/-- A registered class is laid out over its superclass, an object made of it has the cells that its fields
declare, and its tokens lead to cells of their kinds, so a new object can be read. What can fail is the
making of an object with more cells than fit into the memory, and of tokens for a struct array whose elements
have no size. -/
theorem Registered.laid_and_landing (hs : s.Registered) (he : s.get? id = some e) :
    s.LaidOut id e ∧
    (e.width * cellBytes < memoryLimit → ∃ cells, s.instantiate id = .ok cells ∧
      cells.size = e.width ∧ ∀ p ∈ s.placed id,
        List.Forall₂ Kind.Takes p.2.leaves ((cells.toList.drop p.1).take p.2.width)) ∧
    (memoryLimit ≤ e.width * cellBytes → s.instantiate id = .error (.fault .capacity)) ∧
    ((s.lineage id).ElementsFit → ∃ ts, e.stream = .ok ts ∧ ts.Lands (s.leaves id) 0 0 ts.size ∧
      ∀ cells handle name, s.instantiate id = .ok cells →
        (ts.walk (.fresh handle id name cells)).fault = none) ∧
    (¬ (s.lineage id).ElementsFit → ∀ cells handle name, s.instantiate id = .ok cells →
      ∃ f : Fault, s.walk (.fresh handle id name cells) = .error (.fault f) ∧ f.IsOverflow) := by
  have hl := hs.layered
  refine ⟨hl.laidOut he, fun hfits => ?_, fun hlarge => ?_, fun hsizes => ?_, fun hsizes => ?_⟩
  · refine ⟨(s.newCells id).toArray, ?_, ?_, fun p hp => hl.takes_slice he hp⟩
    · rw [instantiate_eq he, if_pos hfits]
    · rw [List.size_toArray, hl.length_newCells id e he]
  · rw [instantiate_eq he, if_neg (Nat.not_lt.mpr hlarge)]
  · obtain ⟨ts, hts⟩ := (hl.stream_ok_iff id e he).mpr hsizes
    refine ⟨ts, hts, hl.lands he hts, fun cells handle name hnew => ?_⟩
    obtain ⟨hfits, -⟩ := hl.instantiate hnew handle name
    exact ((hl.renders id e he ts hts).walk hfits.2).1
  · intro cells handle name hnew
    obtain ⟨hfits, -⟩ := hl.instantiate hnew handle name
    rcases hl.walk_cases hfits with ⟨w, hw, -⟩ | hfault
    · obtain ⟨ts, hts⟩ := (walks_iff he).mp ⟨w, hw⟩
      exact absurd ((hl.stream_ok_iff id e he).mp ⟨ts, hts⟩) hsizes
    · exact hfault

end Schema

namespace Sample

/-- A subclass with an array of no elements, a struct of no fields, and arrays inside arrays. -/
def rack : ClassSpec where
  name := "Rack"
  superclass := some ⟨0⟩
  fields := .cons "gap" (.fixed (.reference .strong) 0) (.cons "blank" (.inline "Blank" .nil)
    (.cons "grid" (.fixed (.fixed (.reference .weak) 2) 3)
      (.cons "rows" (.structs "Row" (.cons "tags" (.fixed (.references .strong) 2) .nil)) .nil)))
  collector := none
  lifecycle := .silent

def sheet : ClassSpec where
  name := "Sheet"
  superclass := none
  fields := .cons "rows" (.structs "Row"
    (.cons "cells" (.fixed (.fixed (.reference .strong) 4294967296) 4294967296) .nil)) .nil
  collector := none
  lifecycle := .silent

theorem elementsFit_rack : Lineage.ElementsFit [shelf, rack] := by
  intro c hc
  simp only [List.mem_cons, List.not_mem_nil, or_false] at hc
  rcases hc with rfl | rfl
  · exact ⟨trivial, fun _ => ⟨trivial, trivial, trivial⟩, trivial⟩
  · exact ⟨fun _ => trivial, trivial, fun _ _ => trivial,
      fun _ => ⟨⟨2, rfl⟩, fun _ => trivial, trivial⟩, trivial⟩

end Sample

namespace Schema

open Sample in
/-- The subclass begins behind the five cells of the other class. -/
theorem laid_and_landing_rack : ∃ (s : Schema) (e : ClassEntry) (cells : Array Cell) (ts : TokenStream),
    s.Registered ∧ s.get? ⟨1⟩ = some e ∧ s.LaidOut ⟨1⟩ e ∧ e.base = 5 ∧ e.width = 12 ∧
      s.instantiate ⟨1⟩ = .ok cells ∧ cells.size = 12 ∧ e.stream = .ok ts ∧
      ts.Lands (s.leaves ⟨1⟩) 0 0 ts.size ∧ (ts.walk (.fresh one ⟨1⟩ "rack" cells)).fault = none := by
  obtain ⟨s, e, hs, he, hspec, hline⟩ := Registered.pair shelf rack rfl rfl (by decide +kernel)
  have hwidth : e.width = 12 := by
    rw [hs.layered.width_lineage _ e he, hline]
    rfl
  have hbase : e.base = 5 := by
    have h := hs.layered.width_eq he
    rw [hspec, hwidth, show rack.fields.width = 7 from rfl] at h
    omega
  obtain ⟨hlaid, hnew, -, hread, -⟩ := hs.laid_and_landing he
  obtain ⟨cells, hcells, hsize, -⟩ := hnew (by rw [hwidth]; decide)
  obtain ⟨ts, hts, hlands, hwalk⟩ := hread (by rw [hline]; exact elementsFit_rack)
  exact ⟨s, e, cells, ts, hs, he, hlaid, hbase, hwidth, hcells, hsize.trans hwidth, hts, hlands,
    hwalk cells one "rack" hcells⟩

open Sample in
/-- A class with one cell, and an object of it, that cannot be read: the number of cells of an element of its
struct array does not fit. -/
theorem laid_yet_unreadable : ∃ (s : Schema) (id : ClassId) (e : ClassEntry) (cells : Array Cell),
    s.Registered ∧ s.get? id = some e ∧ e.width = 1 ∧ s.instantiate id = .ok cells ∧
      s.walk (.fresh one id "sheet" cells) = .error (.fault (.overflow .multiply)) := by
  have hrun : (match Schema.empty.register sheet with
      | .ok (id, s) => (s.get? id).any fun e => decide (e.width = 1) &&
        match s.instantiate id with
        | .ok cells => match s.walk (.fresh one id "sheet" cells) with
          | .error (.fault (.overflow .multiply)) => true
          | _ => false
        | _ => false
      | _ => false) = true := by
    decide +kernel
  split at hrun
  · rename_i id s hsheet
    have hs : s.Registered := Registered.empty.register hsheet
    obtain ⟨e, he, htest⟩ := (Option.any_eq_true _ _).mp hrun
    obtain ⟨hwidth, htest⟩ := Bool.and_eq_true_iff.mp htest
    split at htest
    · rename_i cells hnew
      split at htest
      · rename_i hwalk
        exact ⟨s, id, e, cells, hs, he, of_decide_eq_true hwidth, hnew, hwalk⟩
      · cases htest
    · cases htest
  · cases hrun

end Schema

end TracingHeap

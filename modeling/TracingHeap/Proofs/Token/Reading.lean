import TracingHeap.Proofs.Object.Layout
import TracingHeap.Token.Walk

namespace TracingHeap

def Visit.found (v : Visit) : Address × Strength := (v.address, v.strength)

mutual

/-- The reference slots of a field whose cells start at `pos`. -/
def Kind.slots (cells : Array Cell) (pos : Nat) : Kind → List (Address × Strength)
  | .value => []
  | .reference s => [(⟨pos, .here⟩, s)]
  | .references s =>
    match cells[pos]? with
    | some (.refs ss) => (List.range ss.size).map fun i => (⟨pos, .item i⟩, s)
    | _ => []
  | .fixed element count =>
    (List.range count).flatMap fun i => element.slots cells (pos + i * element.width)
  | .inline _ fields => fields.slots cells pos
  | .structs _ fields =>
    match cells[pos]? with
    | some (.structs es) => (List.range es.size).flatMap fun i =>
      (fields.slots (es.getD i #[]) 0).map fun p => (p.1.within pos i, p.2)
    | _ => []
  | .container spec =>
    match spec.holdsReferences, spec.collector, cells[pos]? with
    | true, some collect, some c => (collect c).map fun p => (⟨pos, p.1⟩, p.2)
    | _, _, _ => []

def Fields.slots (cells : Array Cell) (pos : Nat) : Fields → List (Address × Strength)
  | .nil => []
  | .cons _ kind rest => kind.slots cells pos ++ rest.slots cells (pos + kind.width)

end

mutual

theorem Kind.slots_eq_nil (cells : Array Cell) (pos : Nat) :
    (k : Kind) → k.holdsReferences = false → k.slots cells pos = []
  | .value, _ => rfl
  | .reference _, h | .references _, h => by simp [Kind.holdsReferences] at h
  | .fixed element count, h => by
    simp only [Kind.holdsReferences, Bool.and_eq_false_iff, decide_eq_false_iff_not] at h
    simp only [Kind.slots, List.flatMap_eq_nil_iff, List.mem_range]
    intro i hi
    rcases h with h | h
    · omega
    · exact element.slots_eq_nil cells _ h
  | .inline _ fields, h => fields.slots_eq_nil cells pos h
  | .structs _ fields, h => by
    simp only [Kind.slots]
    split
    · simp only [List.flatMap_eq_nil_iff, List.map_eq_nil_iff]
      exact fun i _ => fields.slots_eq_nil _ 0 h
    · rfl
  | .container spec, h => by
    have hs : spec.holdsReferences = false := h
    simp [Kind.slots, hs]

theorem Fields.slots_eq_nil (cells : Array Cell) (pos : Nat) :
    (fs : Fields) → fs.holdReferences = false → fs.slots cells pos = []
  | .nil, _ => rfl
  | .cons _ kind rest, h => by
    simp only [Fields.holdReferences, Bool.or_eq_false_iff] at h
    simp [Fields.slots, kind.slots_eq_nil cells pos h.1, rest.slots_eq_nil cells _ h.2]

end

namespace Walk

/-- The walk reports some slots and then goes on as another walk. -/
def Reads (w : Walk) (found : List (Address × Strength)) (next : Walk) : Prop :=
  ∃ vs : List Visit, vs.map Visit.found = found ∧ w = (Walk.mk vs none).andThen next

theorem Reads.refl (w : Walk) : w.Reads [] w := ⟨[], rfl, by simp [andThen]⟩

theorem Reads.trans {u v w : Walk} {a b : List (Address × Strength)} (hu : u.Reads a v)
    (hv : v.Reads b w) : u.Reads (a ++ b) w := by
  obtain ⟨vs, rfl, rfl⟩ := hu
  obtain ⟨us, rfl, rfl⟩ := hv
  exact ⟨vs ++ us, by simp, by simp [andThen]⟩

/-- A walk that ends after what it reports is not broken off. -/
theorem Reads.done {w : Walk} {a : List (Address × Strength)} (h : w.Reads a done) :
    w.fault = none ∧ w.visits.map Visit.found = a := by
  obtain ⟨vs, rfl, rfl⟩ := h
  simp [andThen, Walk.done]

theorem Reads.andThen {u v : Walk} {a : List (Address × Strength)} (hu : u.Reads a .done) :
    (u.andThen v).Reads a v := by
  obtain ⟨vs, rfl, rfl⟩ := hu
  exact ⟨vs, rfl, by simp [Walk.andThen, Walk.done]⟩

theorem reads_mk (vs : List Visit) (next : Walk) :
    ((Walk.mk vs none).andThen next).Reads (vs.map Visit.found) next := ⟨vs, rfl, rfl⟩

theorem Reads.within {w : Walk} {a : List (Address × Strength)} (h : w.Reads a .done)
    (offset i : Nat) :
    (w.within offset i).Reads (a.map fun p => (p.1.within offset i, p.2)) .done := by
  obtain ⟨vs, rfl, rfl⟩ := h
  refine ⟨vs.map fun v => { v with address := v.address.within offset i }, ?_, ?_⟩
  · simp [Visit.found, Function.comp_def]
  · simp [Walk.within, Walk.andThen, Walk.done]

/-- Walks one after the other report what each of them reports. -/
theorem reads_each {f : Nat → Walk} {g : Nat → List (Address × Strength)} (i count : Nat)
    (h : ∀ e, i ≤ e → e < i + count → (f e).Reads (g e) .done) :
    (each f i count).Reads ((List.range' i count).flatMap g) .done := by
  induction count generalizing i with
  | zero => exact .refl _
  | succ n ih =>
    obtain ⟨vs, hg, hf⟩ := h i (Nat.le_refl i) (by omega)
    have hi : f i = ⟨vs, none⟩ := by simpa [Walk.andThen, Walk.done] using hf
    have hrest := ih (i + 1) (fun e h1 h2 => h e (by omega) (by omega))
    rw [List.range'_succ, List.flatMap_cons, each, hi, ← hg]
    exact (reads_mk vs _).trans hrest

end Walk

namespace TokenStream

variable {ts : TokenStream} {o : Object}

def HasAt (ts : TokenStream) (start : Nat) (es : List Entry) : Prop :=
  ∀ j e, es[j]? = some e → ts.entries[start + j]? = some e

theorem HasAt.head {start : Nat} {e : Entry} {es : List Entry} (h : ts.HasAt start (e :: es)) :
    ts.token? start = some e.token := by
  have := h 0 e rfl
  simp only [Nat.add_zero] at this
  simp [token?, this]

theorem HasAt.tail {start : Nat} {e : Entry} {es : List Entry} (h : ts.HasAt start (e :: es)) :
    ts.HasAt (start + 1) es := by
  intro j d hd
  have := h (j + 1) d hd
  rwa [show start + (j + 1) = start + 1 + j by omega] at this

theorem HasAt.left {start : Nat} {es fs : List Entry} (h : ts.HasAt start (es ++ fs)) :
    ts.HasAt start es := by
  intro j d hd
  refine h j d ?_
  obtain ⟨hlt, -⟩ := List.getElem?_eq_some_iff.mp hd
  rwa [List.getElem?_append_left hlt]

theorem HasAt.right {start : Nat} {es fs : List Entry} (h : ts.HasAt start (es ++ fs)) :
    ts.HasAt (start + es.length) fs := by
  intro j d hd
  have := h (es.length + j) d (by rwa [List.getElem?_append_right (by omega), Nat.add_sub_cancel_left])
  rwa [← Nat.add_assoc] at this

theorem walkRange_self (cells : Array Cell) (base i : Nat) :
    ts.walkRange o cells base i i = .done := by
  rw [walkRange]
  simp

end TokenStream

open TokenStream Walk

variable {ts : TokenStream} {o : Object}

theorem scope_length (token ret : Entry) (inner : List Entry) (start : Nat) :
    start + (token :: inner ++ [ret]).length = start + inner.length + 2 := by
  simp
  omega

section

variable {start stop base offset count : Nat} {cells : Array Cell} {origin : Origin}
  {inner : List Entry} {ret : Entry} {found : Nat → List (Address × Strength)}

/-- An array scope: the tokens inside are read once for each element, and reading goes on behind
the return token. -/
theorem reads_fixed {stride : Nat}
    (hts : ts.HasAt start (⟨.fixed offset stride count (start + inner.length + 2), origin⟩ ::
      inner ++ [ret]))
    (hstop : start + inner.length + 2 ≤ stop)
    (hbody : ∀ e < count, (ts.walkRange o cells (base + offset + e * stride) (start + 1)
      (start + 1 + inner.length)).Reads (found e) .done) :
    (ts.walkRange o cells base start stop).Reads ((List.range count).flatMap found)
      (ts.walkRange o cells base (start + inner.length + 2) stop) := by
  have hlast : start + inner.length + 2 - 1 = start + 1 + inner.length := by omega
  have hscope : start < start + inner.length + 2 ∧ start + inner.length + 2 ≤ stop :=
    ⟨by omega, hstop⟩
  rw [walkRange]
  simp only [show start < stop by omega, dif_pos, hts.head, hscope, and_self, hlast]
  apply Walk.Reads.andThen
  rw [List.range_eq_range']
  exact reads_each 0 count fun e _ he => hbody e (by omega)

/-- The scope of a struct array. What is read in a row is reported as being in that row. -/
theorem reads_structs (slots : Array Cell → List (Address × Strength)) {es : Array (Array Cell)}
    (hts : ts.HasAt start (⟨.structs offset (start + inner.length + 2), origin⟩ ::
      inner ++ [ret]))
    (hc : cells[base + offset]? = some (.structs es)) (hstop : start + inner.length + 2 ≤ stop)
    (hbody : ∀ row ∈ es, (ts.walkRange o row 0 (start + 1) (start + 1 + inner.length)).Reads
      (slots row) .done) :
    (ts.walkRange o cells base start stop).Reads
      ((List.range es.size).flatMap fun e =>
        (slots (es.getD e #[])).map fun p => (p.1.within (base + offset) e, p.2))
      (ts.walkRange o cells base (start + inner.length + 2) stop) := by
  have hlast : start + inner.length + 2 - 1 = start + 1 + inner.length := by omega
  have hscope : start < start + inner.length + 2 ∧ start + inner.length + 2 ≤ stop :=
    ⟨by omega, hstop⟩
  rw [walkRange]
  simp only [show start < stop by omega, dif_pos, hts.head, hc, hscope, and_self, hlast]
  apply Walk.Reads.andThen
  rw [List.range_eq_range']
  apply reads_each
  intro e _ he
  have hrow : es.getD e #[] ∈ es := by
    rw [Array.getD_eq_getD_getElem?, Array.getElem?_eq_getElem (by omega)]
    exact Array.getElem_mem _
  exact (hbody _ hrow).within (base + offset) e

end

theorem Kind.container_walk_emit (className field : String) {start offset base stop : Nat}
    {cells : Array Cell} {spec : ContainerSpec}
    (hts : ts.HasAt start ((Kind.container spec).emit className field start offset))
    (hfit : (Kind.container spec).FitsAt cells (base + offset))
    (hstop : start + ((Kind.container spec).emit className field start offset).length ≤ stop) :
    (ts.walkRange o cells base start stop).Reads ((Kind.container spec).slots cells (base + offset))
      (ts.walkRange o cells base
        (start + ((Kind.container spec).emit className field start offset).length) stop) := by
  obtain ⟨c, hc⟩ := hfit
  simp only [Kind.emit, Kind.slots] at hts hstop ⊢
  split at hts
  · rename_i collect hholds hcollect
    have hlt : start < stop := by simp [hholds, hcollect] at hstop; omega
    simp only [hholds, hcollect, hc]
    rw [walkRange]
    simp only [hlt, dif_pos, hts.head, hc]
    have h := reads_mk ((collect (.container c)).map fun p =>
      (⟨⟨base + offset, p.1⟩, p.2, start⟩ : Visit)) (ts.walkRange o cells base (start + 1) stop)
    simpa [Visit.found, Function.comp_def] using h
  · rename_i hnone
    split
    · rename_i h1 h2 _
      exact absurd h2 (hnone _ h1)
    · simpa using Walk.Reads.refl _

mutual

theorem Kind.walk_emit (className : String) : (k : Kind) → ∀ (field : String)
    (start offset base stop : Nat) (cells : Array Cell),
    ts.HasAt start (k.emit className field start offset) → k.FitsAt cells (base + offset) →
    start + (k.emit className field start offset).length ≤ stop →
    (ts.walkRange o cells base start stop).Reads (k.slots cells (base + offset))
      (ts.walkRange o cells base (start + (k.emit className field start offset).length) stop)
  | .value, field, start, offset, base, stop, cells, _, _, _ => .refl _
  | .reference s, field, start, offset, base, stop, cells, hts, ⟨slot, hc⟩, hstop => by
    have hlt : start < stop := by simp [Kind.emit] at hstop; omega
    rw [walkRange]
    simp only [hlt, dif_pos, hts.head, hc]
    exact reads_mk _ _
  | .references s, field, start, offset, base, stop, cells, hts, ⟨ss, hc⟩, hstop => by
    have hlt : start < stop := by simp [Kind.emit] at hstop; omega
    rw [walkRange]
    simp only [hlt, dif_pos, hts.head, hc, Kind.slots]
    have h := reads_mk ((List.range ss.size).map fun k =>
      (⟨⟨base + offset, .item k⟩, s, start⟩ : Visit)) (ts.walkRange o cells base (start + 1) stop)
    simpa [Visit.found, Function.comp_def, Kind.emit] using h
  | .inline _ fields, field, start, offset, base, stop, cells, hts, hfit, hstop =>
    fields.walk_emit className _ start offset base stop cells hts hfit hstop
  | .container _, field, _, _, _, _, _, hts, hfit, hstop =>
    Kind.container_walk_emit className field hts hfit hstop
  | .fixed element count, field, start, offset, base, stop, cells, hts, hfit, hstop => by
    simp only [Kind.emit] at hts hstop ⊢
    split at hts
    · rename_i hskip
      have hnil : (Kind.fixed element count).slots cells (base + offset) = [] := by
        apply Kind.slots_eq_nil
        simp only [Bool.or_eq_true, decide_eq_true_eq, Bool.not_eq_true'] at hskip
        rcases hskip with h | h <;> simp [Kind.holdsReferences, h]
      rw [if_pos hskip, hnil]
      exact .refl _
    · rename_i hskip
      rw [if_neg hskip] at hstop ⊢
      split at hts
      · rename_i hone
        rw [if_pos hone] at hstop ⊢
        subst hone
        have h0 : element.FitsAt cells (base + offset) := by simpa using hfit 0 (by omega)
        have h := element.walk_emit className field start offset base stop cells hts h0 hstop
        simpa [Kind.slots] using h
      · rename_i hone
        rw [if_neg hone, scope_length] at hstop ⊢
        refine reads_fixed hts hstop fun e he => ?_
        have hbody := element.walk_emit className field (start + 1) 0
          (base + offset + e * element.width)
          (start + 1 + (element.emit className field (start + 1) 0).length) cells
          hts.tail.left (hfit e he) (Nat.le_refl _)
        simpa [walkRange_self] using hbody
  | .structs name fields, field, start, offset, base, stop, cells, hts, ⟨es, hc, hrows⟩, hstop => by
    simp only [Kind.emit] at hts hstop ⊢
    split at hts
    · rename_i hholds
      rw [if_pos hholds, scope_length] at hstop ⊢
      simp only [Kind.slots, hc]
      refine reads_structs (fun row => fields.slots row 0) hts hc hstop fun row hrow => ?_
      have hbody := fields.walk_emit className _ (start + 1) 0 0
        (start + 1 + (fields.emit className (field ++ ".") (start + 1) 0).length)
        row hts.tail.left (hrows row hrow).2 (Nat.le_refl _)
      simpa [walkRange_self] using hbody
    · rename_i hholds
      rw [if_neg hholds]
      have hnil : (Kind.structs name fields).slots cells (base + offset) = [] :=
        Kind.slots_eq_nil cells _ _ (by simpa [Kind.holdsReferences] using hholds)
      rw [hnil]
      exact .refl _

theorem Fields.walk_emit (className : String) : (fs : Fields) → ∀ (path : String)
    (start offset base stop : Nat) (cells : Array Cell),
    ts.HasAt start (fs.emit className path start offset) → fs.FitAt cells (base + offset) →
    start + (fs.emit className path start offset).length ≤ stop →
    (ts.walkRange o cells base start stop).Reads (fs.slots cells (base + offset))
      (ts.walkRange o cells base (start + (fs.emit className path start offset).length) stop)
  | .nil, path, start, offset, base, stop, cells, _, _, _ => .refl _
  | .cons name kind rest, path, start, offset, base, stop, cells, hts, hfit, hstop => by
    simp only [Fields.emit, List.length_append] at hts hstop ⊢
    have hown := kind.walk_emit className (path ++ name) start offset base stop cells
      hts.left hfit.1 (by omega)
    have hrest := rest.walk_emit className path _ (offset + kind.width) base stop cells
      hts.right (by rw [← Nat.add_assoc]; exact hfit.2) (by omega)
    have h := hown.trans hrest
    rwa [← Nat.add_assoc base, Nat.add_assoc start] at h

end

end TracingHeap

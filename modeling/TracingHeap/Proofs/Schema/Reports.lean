import TracingHeap.Proofs.Schema.Classes

namespace TracingHeap

namespace Schema

variable {s : Schema} {id : ClassId} {e : ClassEntry} {o o' : Object} {a : Address} {k : Strength}

/-- The token stream of its class reports a slot of an object as one of this strength. -/
def Reports (s : Schema) (o : Object) (a : Address) (k : Strength) : Prop :=
  ∃ w v, s.walk o = .ok w ∧ v ∈ w.visits ∧ v.address = a ∧ v.strength = k

theorem reports_of_visit {w : Walk} {v : Visit} (hw : s.walk o = .ok w) (hv : v ∈ w.visits) :
    s.Reports o v.address v.strength := ⟨w, v, hw, hv, rfl, rfl⟩

theorem walk_ok_iff {w : Walk} :
    s.walk o = .ok w ↔ ∃ ts, s.stream o.classId = .ok ts ∧ ts.walk o = w := by
  unfold walk
  constructor
  · intro h
    obtain ⟨ts, hts, h⟩ := except_bind_ok h
    exact ⟨ts, hts, Except.ok.inj h⟩
  · rintro ⟨ts, hts, rfl⟩
    rw [hts]
    rfl

theorem Reports.mem_slots (h : s.Reports o a k) (hs : s.Regular) (ho : s.Fits o) :
    (a, k) ∈ (s.outline o.classId).flatMap (Part.slots o) := by
  obtain ⟨w, v, hw, hv, rfl, rfl⟩ := h
  rcases hs.walk_cases ho with ⟨u, hu, -, hfound⟩ | ⟨f, hf, -⟩
  · rw [hw] at hu
    cases hu
    rw [← hfound]
    exact List.mem_map_of_mem hv
  · rw [hw] at hf
    cases hf

/-- A slot that holds a reference in two states of an object is reported alike in both. -/
theorem Reports.steady {g g' : Handle} (h : s.Reports o' a k) (hs : s.Regular) (ho : s.Fits o)
    (ho' : s.Fits o') (hsame : o.Same o') (ha : o.slot? a = some (some g))
    (ha' : o'.slot? a = some (some g')) : s.Reports o a k := by
  have hin := h.mem_slots hs ho'
  obtain ⟨w', v', hw', -⟩ := h
  obtain ⟨ts, hts, -⟩ := walk_ok_iff.mp hw'
  rw [hsame.classId] at hin hts
  have hw : s.walk o = .ok (ts.walk o) := walk_ok_iff.mpr ⟨ts, hts, rfl⟩
  rcases hs.walk_cases ho with ⟨u, hu, -, hfound⟩ | ⟨f, hf, -⟩
  · rw [hw] at hu
    cases hu
    obtain ⟨p, hp, hslot⟩ := List.mem_flatMap.mp hin
    obtain ⟨⟨e, he, -⟩, hparts⟩ := ho
    have hparts' := ho'.2
    rw [hsame.classId] at hparts'
    have hmem : (a, k) ∈ (s.outline o.classId).flatMap (Part.slots o) :=
      List.mem_flatMap.mpr ⟨p, hp, Part.slots_steady (hs.honest_parts _ e he p hp) (hparts p hp)
        (hparts' p hp) hsame ha ha' hslot⟩
    rw [← hfound] at hmem
    obtain ⟨v, hv, hva⟩ := List.mem_map.mp hmem
    cases hva
    exact reports_of_visit hw hv
  · rw [hw] at hf
    cases hf

theorem Fits.modifyCell (ho : s.Fits o) {f : Cell → Cell} (hf : ShapeKept f) (i : Nat) :
    s.Fits { o with cells := o.cells.modify i f } := by
  obtain ⟨⟨e, he, hsize⟩, hparts⟩ := ho
  refine ⟨⟨e, he, by simpa using hsize⟩, ?_⟩
  intro p hp
  have := hparts p hp
  cases p with
  | fields base fs => exact fs.fitAt_modify hf i this
  | collector g => trivial

theorem Fits.clearSlot (ho : s.Fits o) (a : Address) : s.Fits (o.clearSlot a) :=
  ho.modifyCell (.clear a.place) a.offset

theorem Fits.hold (ho : s.Fits o) (offset : Nat) (target : Slot) :
    s.Fits (o.modifyCell offset (·.hold target)) :=
  ho.modifyCell (.hold target) offset

theorem register_ok {spec : ClassSpec} {s' : Schema} (h : s.register spec = .ok (id, s')) :
    ∃ e, s' = ⟨s.classes.push e⟩ ∧ e.spec = spec ∧ s.Built s.size e := by
  unfold register at h
  split at h
  · cases h
  · obtain ⟨⟨⟩, hcheck, h⟩ := except_bind_ok h
    obtain ⟨parent, hparent, h⟩ := except_bind_ok h
    obtain ⟨_, -, h⟩ := except_bind_ok h
    obtain ⟨e, he, h⟩ := except_bind_ok h
    cases h
    have hparent := except_mapError_ok hparent
    have hl := except_mapError_ok he
    obtain ⟨hspec, -⟩ := layOut_ok hl
    refine ⟨e, rfl, hspec, by rw [hspec]; exact except_mapError_ok hcheck, ?_⟩
    cases hsup : spec.superclass with
    | none =>
      simp only [Schema.parent, hsup] at hparent
      cases hparent
      simp only [hspec, hsup]
      exact hl
    | some p =>
      simp only [Schema.parent, hsup, get] at hparent
      cases hq : s.get? p with
      | none =>
        rw [hq] at hparent
        cases hparent
      | some q =>
        rw [hq] at hparent
        cases hparent
        obtain ⟨hlt, -⟩ := Array.getElem?_eq_some_iff.mp hq
        simp only [hspec, hsup]
        exact ⟨hlt, q, hq, hl⟩

/-- A class is refused with an answer, unless its size is too large a number. -/
theorem register_fault {spec : ClassSpec} {f : Fault} (h : s.register spec = .error (.fault f)) :
    f.IsOverflow := by
  unfold register at h
  split at h
  · cases h
  · rcases except_bind_error h with h | ⟨_, -, h⟩
    · exact (except_mapError_fault h).elim
    rcases except_bind_error h with h | ⟨_, -, h⟩
    · exact (except_mapError_fault h).elim
    rcases except_bind_error h with h | ⟨_, -, h⟩
    · exact (except_mapError_fault h).elim
    rcases except_bind_error h with h | ⟨_, -, h⟩
    · exact layOut_error (except_mapError_error h)
    · cases h

theorem get?_push (e : ClassEntry) {d : ClassEntry} (h : s.get? id = some d) :
    (Schema.mk (s.classes.push e)).get? id = some d := by
  unfold get? at h ⊢
  obtain ⟨hlt, -⟩ := Array.getElem?_eq_some_iff.mp h
  rw [Array.getElem?_push_lt hlt, ← h, Array.getElem?_eq_getElem hlt]

theorem Built.push {i : Nat} {d : ClassEntry} (h : s.Built i d) (e : ClassEntry) :
    (Schema.mk (s.classes.push e)).Built i d := by
  obtain ⟨hcheck, h⟩ := h
  refine ⟨hcheck, ?_⟩
  split
  · rename_i hsup
    simpa only [hsup] using h
  · rename_i p hsup
    simp only [hsup] at h
    obtain ⟨hlt, q, hq, hl⟩ := h
    exact ⟨hlt, q, get?_push e hq, hl⟩

theorem get?_of_push {d : ClassEntry} (h : (Schema.mk (s.classes.push e)).get? id = some d) :
    s.get? id = some d ∨ id.index = s.size ∧ d = e := by
  simp only [get?, Array.getElem?_push] at h
  split at h
  · rename_i hi
    exact .inr ⟨hi, (Option.some.inj h).symm⟩
  · exact .inl h

/-- A class laid out over the others joins them. -/
theorem Layered.push (hs : s.Layered) (he : s.Built s.size e) :
    (Schema.mk (s.classes.push e)).Layered := by
  refine ⟨fun id d hd => ?_⟩
  rcases get?_of_push hd with hd | ⟨hi, rfl⟩
  · exact (hs.built id d hd).push e
  · rw [hi]
    exact he.push d

theorem Regular.push (hs : s.Regular) (he : s.Built s.size e) (hspec : e.spec.Honest) :
    (Schema.mk (s.classes.push e)).Regular := by
  refine ⟨hs.toLayered.push he, fun id d hd => ?_⟩
  rcases get?_of_push hd with hd | ⟨-, rfl⟩
  · exact hs.honest id d hd
  · exact hspec

theorem Layered.empty : Schema.empty.Layered := by
  constructor
  intro id e he
  simp [Schema.empty, get?] at he

theorem Regular.empty : Schema.empty.Regular := by
  refine ⟨.empty, fun id e he => ?_⟩
  simp [Schema.empty, get?] at he

theorem outline_push (hs : s.Layered) (e : ClassEntry) : ∀ id d, s.get? id = some d →
    (Schema.mk (s.classes.push e)).outline id = s.outline id := by
  refine hs.induct ?_ ?_
  · intro id d hd hsup _
    rw [outline_root (get?_push e hd) hsup, outline_root hd hsup]
  · intro id d p q hd hsup hlt _ _ ih
    rw [outline_child (get?_push e hd) hsup hlt, outline_child hd hsup hlt, ih]

theorem Fits.push (ho : s.Fits o) (hs : s.Regular) (e : ClassEntry) :
    (Schema.mk (s.classes.push e)).Fits o := by
  obtain ⟨⟨d, hd, hsize⟩, hparts⟩ := ho
  refine ⟨⟨d, get?_push e hd, hsize⟩, ?_⟩
  rw [outline_push hs.toLayered e _ d hd]
  exact hparts

theorem Fits.walk_push (ho : s.Fits o) (e : ClassEntry) :
    (Schema.mk (s.classes.push e)).walk o = s.walk o := by
  obtain ⟨⟨d, hd, -⟩, -⟩ := ho
  simp only [walk, stream, get, hd, get?_push e hd]

theorem Fits.reports_push (ho : s.Fits o) (e : ClassEntry) :
    (Schema.mk (s.classes.push e)).Reports o a k ↔ s.Reports o a k := by
  simp only [Reports, ho.walk_push e]

/-- The cells of a new object: those of every superclass, the farthest first, and its own. -/
def newCells (s : Schema) (id : ClassId) : List Cell :=
  ((s.ancestry id).reverse.filterMap s.get?).flatMap fun c => c.spec.fields.cells

theorem newCells_root (h : s.get? id = some e) (hs : e.spec.superclass = none) :
    s.newCells id = e.spec.fields.cells := by
  rw [newCells, ancestry, h]
  simp [hs, h]

theorem newCells_child {p : ClassId} (h : s.get? id = some e) (hs : e.spec.superclass = some p)
    (hp : p.index < id.index) : s.newCells id = s.newCells p ++ e.spec.fields.cells := by
  rw [newCells, ancestry, h]
  simp [hs, hp, h, newCells, List.filterMap_append]

theorem Layered.length_newCells (hs : s.Layered) : ∀ id e, s.get? id = some e →
    (s.newCells id).length = e.width := by
  refine hs.induct ?_ ?_
  · intro id e he hsup hl
    obtain ⟨-, hbase, hwidth, -⟩ := layOut_ok hl
    rw [newCells_root he hsup, Fields.length_cells, hwidth, hbase]
    simp
  · intro id e p q he hsup hlt hq hl ih
    obtain ⟨-, hbase, hwidth, -⟩ := layOut_ok hl
    rw [newCells_child he hsup hlt, List.length_append, ih, Fields.length_cells, hwidth, hbase]
    rfl

theorem Layered.fits_newCells (hs : s.Layered) : ∀ id e, s.get? id = some e →
    ∀ post, ∀ p ∈ s.outline id, p.Fits (s.newCells id ++ post).toArray := by
  refine hs.induct ?_ ?_
  · intro id e he hsup hl post p hp
    rw [outline_root he hsup] at hp
    rw [newCells_root he hsup]
    rcases Part.mem_extend hp with hp | rfl | ⟨f, -, rfl⟩
    · cases hp
    · have hbase : e.base = 0 := (layOut_ok hl).2.1
      rw [hbase]
      exact e.spec.fields.fitAt_cells [] post
    · trivial
  · intro id e p q he hsup hlt hq hl ih post r hr
    rw [outline_child he hsup hlt] at hr
    rw [newCells_child he hsup hlt, List.append_assoc]
    rcases Part.mem_extend hr with hr | rfl | ⟨f, -, rfl⟩
    · exact ih _ r hr
    · have hbase : e.base = q.width := (layOut_ok hl).2.1
      have h := e.spec.fields.fitAt_cells (s.newCells p) post
      rwa [hs.length_newCells p q hq, ← hbase, List.append_assoc] at h
    · trivial

theorem Regular.blank_newCells (hs : s.Regular) : ∀ id e, s.get? id = some e →
    ∀ c ∈ s.newCells id, c.Blank := by
  refine hs.induct ?_ ?_
  · intro id e he hsup _
    rw [newCells_root he hsup]
    exact e.spec.fields.blank_cells (hs.honest id e he).fields
  · intro id e p q he hsup hlt _ _ ih c hc
    rw [newCells_child he hsup hlt] at hc
    rcases List.mem_append.mp hc with hc | hc
    · exact ih c hc
    · exact e.spec.fields.blank_cells (hs.honest id e he).fields c hc

theorem instantiate_fault {f : Fault} (h : s.instantiate id = .error (.fault f)) :
    ¬ f.Corrupt := by
  unfold Schema.instantiate at h
  rcases except_bind_error h with h | ⟨e, -, h⟩
  · exact (except_mapError_fault h).elim
  rcases except_bind_error h with h | ⟨_, -, h⟩
  · have h := except_mapError_error h
    unfold reserve at h
    split at h
    · cases h
    · cases h
      exact Fault.not_corrupt_capacity
  · cases h

/-- A new object fits its class. -/
theorem Layered.instantiate (hs : s.Layered) {cells : Array Cell} (h : s.instantiate id = .ok cells)
    (handle : Handle) (name : String) :
    s.Fits (.fresh handle id name cells) ∧ cells = (s.newCells id).toArray := by
  unfold Schema.instantiate at h
  obtain ⟨e, he, h⟩ := except_bind_ok h
  obtain ⟨_, _, h⟩ := except_bind_ok h
  have he := except_mapError_ok he
  unfold get at he
  split at he
  · rename_i d hd
    cases he
    have hcells : cells = (s.newCells id).toArray := (Except.ok.inj h).symm
    subst hcells
    refine ⟨⟨⟨e, hd, ?_⟩, ?_⟩, rfl⟩
    · simpa [Object.fresh] using hs.length_newCells id e hd
    · have := hs.fits_newCells id e hd []
      rwa [List.append_nil] at this
  · cases he

/-- A new object fits its class and holds no references. -/
theorem Regular.instantiate (hs : s.Regular) {cells : Array Cell}
    (h : s.instantiate id = .ok cells) (handle : Handle) (name : String) :
    s.Fits (.fresh handle id name cells) ∧ ∀ c ∈ cells, c.Blank := by
  obtain ⟨hfit, rfl⟩ := hs.toLayered.instantiate h handle name
  obtain ⟨e, he, -⟩ := hfit.1
  exact ⟨hfit, fun c hc => hs.blank_newCells id e he c (by simpa using hc)⟩

end Schema

end TracingHeap

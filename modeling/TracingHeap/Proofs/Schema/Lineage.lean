import TracingHeap.Proofs.Token.Emission
import TracingHeap.Proofs.Purge.Pending

namespace TracingHeap

/-- The declarations of a class and its superclasses, the farthest first. -/
abbrev Lineage := List ClassSpec

namespace Lineage

def width : Lineage → Nat
  | [] => 0
  | c :: rest => c.fields.width + width rest

/-- The elements of the struct arrays of the classes have sizes. -/
def ElementsFit (line : Lineage) : Prop := ∀ c ∈ line, c.fields.ElementsFit

/-- The cells from `pos` on are those of the fields of the classes, one class after the other. -/
def FitAt (cells : Array Cell) (pos : Nat) : Lineage → Prop
  | [] => True
  | c :: rest => c.fields.FitAt cells pos ∧ FitAt cells (pos + c.fields.width) rest

def nearest : Lineage → Option ObjectCollector
  | [] => none
  | c :: rest => (nearest rest).or c.collector

def fieldSlots (o : Object) (pos : Nat) : Lineage → List (Address × Strength)
  | [] => []
  | c :: rest => c.fields.slots o.cells pos ++ fieldSlots o (pos + c.fields.width) rest

/-- The slots that the classes describe. The farthest class that declares a collector is where one is
called, right after the fields of that class; the one called is that of the nearest. -/
def slots (o : Object) (pos : Nat) : Lineage → List (Address × Strength)
  | [] => []
  | c :: rest =>
    c.fields.slots o.cells pos ++
      match c.collector with
      | none => slots o (pos + c.fields.width) rest
      | some f => (nearest rest).getD f o ++ fieldSlots o (pos + c.fields.width) rest

def fieldParts (pos : Nat) : Lineage → List Part
  | [] => []
  | c :: rest => .fields pos c.fields :: fieldParts (pos + c.fields.width) rest

def parts (pos : Nat) : Lineage → List Part
  | [] => []
  | c :: rest =>
    .fields pos c.fields ::
      match c.collector with
      | none => parts (pos + c.fields.width) rest
      | some f => .collector ((nearest rest).getD f) :: fieldParts (pos + c.fields.width) rest

variable {o : Object} {cells : Array Cell}

theorem width_append (line more : Lineage) : width (line ++ more) = line.width + more.width := by
  induction line with
  | nil => simp [width]
  | cons c rest ih => rw [List.cons_append, width, width, ih, Nat.add_assoc]

theorem nearest_append (line : Lineage) (c : ClassSpec) :
    nearest (line ++ [c]) = c.collector.or line.nearest := by
  induction line with
  | nil => simp [nearest]
  | cons d rest ih => rw [List.cons_append, nearest, nearest, ih, Option.or_assoc]

theorem fieldParts_append (line : Lineage) (c : ClassSpec) : ∀ pos,
    fieldParts pos (line ++ [c]) = line.fieldParts pos ++ [.fields (pos + line.width) c.fields] := by
  induction line with
  | nil => intro pos; rfl
  | cons d rest ih =>
    intro pos
    rw [List.cons_append, fieldParts, fieldParts, ih, width, Nat.add_assoc]
    rfl

/-- What a subclass adds to the parts of its superclasses makes them the parts of all together. A collector
that it declares takes the place of theirs. -/
theorem extend_parts (line : Lineage) (c : ClassSpec) : ∀ pos,
    Part.extend (line.parts pos) (pos + line.width) c.fields c.collector = parts pos (line ++ [c]) := by
  induction line with
  | nil =>
    intro pos
    cases hc : c.collector <;>
      simp [Part.extend, Part.withCollector, parts, nearest, fieldParts, width, hc]
  | cons d rest ih =>
    intro pos
    rw [List.cons_append, parts, parts, width, ← Nat.add_assoc]
    cases hd : d.collector with
    | none =>
      rw [← ih]
      cases hc : c.collector <;> rfl
    | some g =>
      simp only [nearest_append, fieldParts_append]
      cases hc : c.collector <;> rfl

theorem flatMap_fieldParts (line : Lineage) : ∀ pos,
    (line.fieldParts pos).flatMap (Part.slots o) = line.fieldSlots o pos := by
  induction line with
  | nil => intro pos; rfl
  | cons c rest ih =>
    intro pos
    rw [fieldParts, List.flatMap_cons, ih]
    rfl

theorem flatMap_parts (line : Lineage) : ∀ pos,
    (line.parts pos).flatMap (Part.slots o) = line.slots o pos := by
  induction line with
  | nil => intro pos; rfl
  | cons c rest ih =>
    intro pos
    rw [parts, slots, List.flatMap_cons]
    refine congrArg (c.fields.slots o.cells pos ++ ·) ?_
    cases c.collector with
    | none => exact ih _
    | some f => exact congrArg ((nearest rest).getD f o ++ ·) (flatMap_fieldParts rest _)

theorem fits_fieldParts (line : Lineage) : ∀ pos,
    (∀ p ∈ line.fieldParts pos, p.Fits cells) ↔ line.FitAt cells pos := by
  induction line with
  | nil => simp [fieldParts, FitAt]
  | cons c rest ih =>
    intro pos
    rw [fieldParts, List.forall_mem_cons, ih]
    rfl

/-- The cells fit every part just when they fit the fields of every class. -/
theorem fits_parts (line : Lineage) : ∀ pos,
    (∀ p ∈ line.parts pos, p.Fits cells) ↔ line.FitAt cells pos := by
  induction line with
  | nil => simp [parts, FitAt]
  | cons c rest ih =>
    intro pos
    rw [parts, List.forall_mem_cons]
    refine and_congr Iff.rfl ?_
    cases c.collector with
    | none => exact ih _
    | some f =>
      rw [List.forall_mem_cons]
      exact (and_iff_right trivial).trans (fits_fieldParts rest _)

end Lineage

namespace Schema

variable {s : Schema} {id : ClassId} {e : ClassEntry} {o : Object}

def lineage (s : Schema) (id : ClassId) : Lineage :=
  (s.ancestry id).reverse.filterMap fun c => (s.get? c).map (·.spec)

theorem lineage_root (h : s.get? id = some e) (hs : e.spec.superclass = none) :
    s.lineage id = [e.spec] := by
  rw [lineage, ancestry, h]
  simp [hs, h]

theorem lineage_child {p : ClassId} (h : s.get? id = some e) (hs : e.spec.superclass = some p)
    (hp : p.index < id.index) : s.lineage id = s.lineage p ++ [e.spec] := by
  rw [lineage, ancestry, h]
  simp [hs, hp, h, lineage, List.filterMap_append]

theorem Layered.width_lineage (hs : s.Layered) : ∀ id e, s.get? id = some e →
    e.width = (s.lineage id).width := by
  refine hs.induct ?_ ?_
  · intro id e he hsup hl
    obtain ⟨-, hbase, hwidth, -⟩ := layOut_ok hl
    rw [lineage_root he hsup, hwidth, hbase]
    simp [Lineage.width]
  · intro id e p q he hsup hlt hq hl ih
    obtain ⟨-, hbase, hwidth, -⟩ := layOut_ok hl
    rw [lineage_child he hsup hlt, Lineage.width_append, ← ih, hwidth, hbase]
    rfl

/-- The outline of a class is its lineage in parts. -/
theorem Layered.outline_eq (hs : s.Layered) : ∀ id e, s.get? id = some e →
    s.outline id = (s.lineage id).parts 0 := by
  refine hs.induct ?_ ?_
  · intro id e he hsup hl
    have hbase : e.base = 0 := (layOut_ok hl).2.1
    rw [outline_root he hsup, lineage_root he hsup, hbase]
    exact Lineage.extend_parts [] e.spec 0
  · intro id e p q he hsup hlt hq hl ih
    have hbase : e.base = 0 + (s.lineage p).width := by
      rw [Nat.zero_add, ← hs.width_lineage p q hq]
      exact (layOut_ok hl).2.1
    rw [outline_child he hsup hlt, lineage_child he hsup hlt, ih, hbase]
    exact Lineage.extend_parts _ e.spec 0

/-- The object is of a registered class, and its cells are those of the class with its superclasses. -/
structure Conforms (s : Schema) (o : Object) : Prop where
  known : (s.get? o.classId).isSome
  size : o.cells.size = (s.lineage o.classId).width
  fit : (s.lineage o.classId).FitAt o.cells 0

theorem Layered.conforms_iff (hs : s.Layered) : s.Conforms o ↔ s.Fits o := by
  constructor
  · rintro ⟨hknown, hsize, hfit⟩
    obtain ⟨e, he⟩ := Option.isSome_iff_exists.mp hknown
    refine ⟨⟨e, he, hsize.trans (hs.width_lineage _ e he).symm⟩, ?_⟩
    rw [hs.outline_eq _ e he]
    exact (Lineage.fits_parts _ 0).mpr hfit
  · rintro ⟨⟨e, he, hsize⟩, hparts⟩
    rw [hs.outline_eq _ e he] at hparts
    exact ⟨by rw [he]; rfl, hsize.trans (hs.width_lineage _ e he), (Lineage.fits_parts _ 0).mp hparts⟩

/-- A class has a stream just when the elements in the fields of its whole lineage have sizes. -/
theorem Layered.stream_ok_iff (hs : s.Layered) : ∀ id e, s.get? id = some e →
    ((∃ ts, e.stream = .ok ts) ↔ (s.lineage id).ElementsFit) := by
  refine hs.induct ?_ ?_
  · intro id e he hsup hl
    rw [lineage_root he hsup, (layOut_ok hl).2.2.2, Lineage.ElementsFit, List.forall_mem_singleton]
    exact (hs.built id e he).assembles hl none
  · intro id e p q he hsup hlt hq hl ih
    have hstream : e.stream = q.stream.bind fun ts => TokenStream.assemble e.spec.name e.base
        e.spec.fields e.spec.collector (some ts) := (layOut_ok hl).2.2.2
    rw [lineage_child he hsup hlt, Lineage.ElementsFit, List.forall_mem_append,
      List.forall_mem_singleton, ← Lineage.ElementsFit, ← ih, hstream]
    constructor
    · rintro ⟨ts, h⟩
      obtain ⟨us, hus, h⟩ := except_bind_ok h
      exact ⟨⟨us, hus⟩, ((hs.built id e he).assembles hl (some us)).mp ⟨ts, h⟩⟩
    · rintro ⟨⟨us, hus⟩, hfit⟩
      obtain ⟨ts, h⟩ := ((hs.built id e he).assembles hl (some us)).mpr hfit
      rw [hus]
      exact ⟨ts, h⟩

/-- A schema to which classes have been added one after the other. -/
inductive Registered : Schema → Prop where
  | empty : Registered .empty
  | register {s s' : Schema} {spec : ClassSpec} {id : ClassId} :
      Registered s → s.register spec = .ok (id, s') → Registered s'

theorem Registered.layered (hs : s.Registered) : s.Layered := by
  induction hs with
  | empty => exact .empty
  | register _ h ih =>
    obtain ⟨e, rfl, -, hb⟩ := register_ok h
    exact ih.push hb

/-- A class and a subclass of it can be the first two of a schema. -/
theorem Registered.pair (a b : ClassSpec) (ha : a.superclass = none) (hb : b.superclass = some ⟨0⟩)
    (hrun : (match Schema.empty.register a with
      | .ok (_, t) => match t.register b with
        | .ok _ => true
        | .error _ => false
      | .error _ => false) = true) :
    ∃ (s : Schema) (e : ClassEntry), s.Registered ∧ s.get? ⟨1⟩ = some e ∧ e.spec = b ∧
      s.lineage ⟨1⟩ = [a, b] := by
  split at hrun
  · rename_i t hfirst
    split at hrun
    · rename_i added hsecond
      obtain ⟨_, s⟩ := added
      obtain ⟨d, ht, hd, -⟩ := register_ok hfirst
      obtain ⟨e, hs, he, -⟩ := register_ok hsecond
      have hroot : s.get? ⟨0⟩ = some d := by
        rw [hs, ht]
        rfl
      have hchild : s.get? ⟨1⟩ = some e := by
        rw [hs, ht]
        rfl
      refine ⟨s, e, (Registered.empty.register hfirst).register hsecond, hchild, he, ?_⟩
      rw [lineage_child (p := ⟨0⟩) hchild (by rw [he]; exact hb) (by decide),
        lineage_root hroot (by rw [hd]; exact ha), hd, he]
      rfl
    · cases hrun
  · cases hrun

/-- A new object conforms to its class. -/
theorem Registered.conforms_fresh (hs : s.Registered) {cells : Array Cell}
    (h : s.instantiate id = .ok cells) (handle : Handle) (name : String) :
    s.Conforms (.fresh handle id name cells) :=
  hs.layered.conforms_iff.mpr (hs.layered.instantiate h handle name).1

theorem walks_iff (he : s.get? o.classId = some e) :
    (∃ w, s.walk o = .ok w) ↔ ∃ ts, e.stream = .ok ts := by
  have hstream : s.stream o.classId = e.stream.mapError .fault := by
    rw [stream, get, he]
    rfl
  constructor
  · rintro ⟨w, hw⟩
    obtain ⟨ts, hts, -⟩ := walk_ok_iff.mp hw
    exact ⟨ts, except_mapError_ok (hstream.symm.trans hts)⟩
  · rintro ⟨ts, hts⟩
    rw [hts] at hstream
    exact ⟨_, walk_ok_iff.mpr ⟨ts, hstream, rfl⟩⟩

/-- The token stream of a class reports of an object what its lineage describes, in that order, and the
walk is not broken off. There is a stream just when the elements of the struct arrays of the class and its
superclasses have sizes; otherwise a number overflows as it is made. -/
theorem Registered.walk_reads (hs : s.Registered) (ho : s.Conforms o) :
    ((s.lineage o.classId).ElementsFit → ∃ w, s.walk o = .ok w ∧ w.fault = none ∧
        w.visits.map Visit.found = (s.lineage o.classId).slots o 0) ∧
      (¬ (s.lineage o.classId).ElementsFit →
        ∃ f : Fault, s.walk o = .error (.fault f) ∧ f.IsOverflow) := by
  have hl := hs.layered
  obtain ⟨e, he⟩ := Option.isSome_iff_exists.mp ho.known
  rw [← hl.stream_ok_iff _ e he, ← walks_iff he]
  rcases hl.walk_cases (hl.conforms_iff.mp ho) with ⟨w, hw, hfault, hfound⟩ | ⟨f, hf, hover⟩
  · rw [hl.outline_eq _ e he, Lineage.flatMap_parts] at hfound
    exact ⟨fun _ => ⟨w, hw, hfault, hfound⟩, fun hnone => absurd ⟨w, hw⟩ hnone⟩
  · refine ⟨fun ⟨w, hw⟩ => ?_, fun _ => ⟨f, hf, hover⟩⟩
    rw [hf] at hw
    cases hw

end Schema

namespace Sample

def shelf : ClassSpec where
  name := "Shelf"
  superclass := none
  fields := .cons "first" (.reference .strong)
    (.cons "pairs" (.fixed (.inline "Pair" (.cons "a" (.reference .strong)
      (.cons "b" (.reference .weak) .nil))) 2) .nil)
  collector := some Object.bagSlots
  lifecycle := .silent

def cabinet : ClassSpec where
  name := "Cabinet"
  superclass := some ⟨0⟩
  fields := .cons "rows" (.structs "Row" (.cons "key" .value (.cons "next" (.reference .strong) .nil)))
    (.cons "bag" (.container ⟨true, some Cell.bagSlotsReversed, .bag #[] #[]⟩) .nil)
  collector := some Object.bagSlotsWeak
  lifecycle := .silent

/-- A cabinet with two rows and two entries in its bag. -/
def filled : Object := .fresh one ⟨1⟩ "filled"
  #[.ref none, .ref none, .ref none, .ref none, .ref none,
    .structs #[#[.value 0, .ref none], #[.value 0, .ref none]], .container (.bag #[none] #[none])]

/-- A class whose struct array has elements with more cells than a size can count. -/
def ledger : ClassSpec where
  name := "Ledger"
  superclass := none
  fields := .cons "rows" (.structs "Row" (.cons "key" (.fixed .value 18446744073709551615)
    (.cons "next" (.reference .strong) .nil))) .nil
  collector := none
  lifecycle := .silent

theorem fitAt_filled : Lineage.FitAt filled.cells 0 [shelf, cabinet] := by
  refine ⟨⟨⟨none, rfl⟩, fun i hi => ?_, trivial⟩,
    ⟨⟨_, rfl, fun row hrow => ?_⟩, ⟨_, rfl⟩, trivial⟩, trivial⟩
  · match i, hi with
    | 0, _ | 1, _ => exact ⟨⟨none, rfl⟩, ⟨none, rfl⟩, trivial⟩
  · have hrow : row = #[.value 0, .ref none] := by simpa using hrow
    subst hrow
    exact ⟨rfl, ⟨0, rfl⟩, ⟨none, rfl⟩, trivial⟩

theorem elementsFit_cabinet : Lineage.ElementsFit [shelf, cabinet] := by
  intro c hc
  simp only [List.mem_cons, List.not_mem_nil, or_false] at hc
  rcases hc with rfl | rfl
  · exact ⟨trivial, fun _ => ⟨trivial, trivial, trivial⟩, trivial⟩
  · exact ⟨fun _ => ⟨⟨2, rfl⟩, trivial, trivial, trivial⟩, trivial, trivial⟩

end Sample

namespace Schema

open Sample in
/-- The collector of the subclass is called in the place of the other, before the fields of the subclass. -/
theorem walk_reads_cabinet : ∃ (s : Schema) (w : Walk), s.Registered ∧ s.Conforms filled ∧
    s.walk filled = .ok w ∧ w.fault = none ∧ w.visits.map Visit.found =
      [(⟨0, .here⟩, .strong), (⟨1, .here⟩, .strong), (⟨2, .here⟩, .weak), (⟨3, .here⟩, .strong),
        (⟨4, .here⟩, .weak), (⟨6, .strongItem 0⟩, .weak), (⟨6, .weakItem 0⟩, .weak),
        (⟨5, .element 0 1 .here⟩, .strong), (⟨5, .element 1 1 .here⟩, .strong),
        (⟨6, .weakItem 0⟩, .weak), (⟨6, .strongItem 0⟩, .strong)] := by
  obtain ⟨s, e, hs, he, -, hline⟩ := Registered.pair shelf cabinet rfl rfl (by decide +kernel)
  have ho : s.Conforms filled :=
    ⟨Option.isSome_of_eq_some he, by rw [show filled.classId = ⟨1⟩ from rfl, hline]; rfl,
      by rw [show filled.classId = ⟨1⟩ from rfl, hline]; exact fitAt_filled⟩
  obtain ⟨w, hw, hfault, hfound⟩ := (hs.walk_reads ho).1
    (by rw [show filled.classId = ⟨1⟩ from rfl, hline]; exact elementsFit_cabinet)
  rw [show filled.classId = ⟨1⟩ from rfl, hline] at hfound
  exact ⟨s, w, hs, ho, hw, hfault, hfound⟩

open Sample in
/-- The sizes inside struct arrays are added up only when tokens are made. A class is registered, and an
object is made of it, and the tokens of the class cannot be made. -/
theorem walk_overflows_ledger : ∃ (s : Schema) (o : Object), s.Registered ∧ s.Conforms o ∧
    s.walk o = .error (.fault (.overflow .add)) := by
  have hrun : (match Schema.empty.register ledger with
      | .ok (id, s) => match s.instantiate id with
        | .ok cells => match s.walk (.fresh one id "ledger" cells) with
          | .error (.fault (.overflow .add)) => true
          | _ => false
        | _ => false
      | _ => false) = true := by
    decide +kernel
  split at hrun
  · rename_i id s hledger
    have hs : s.Registered := Registered.empty.register hledger
    split at hrun
    · rename_i cells hnew
      split at hrun
      · rename_i hwalk
        exact ⟨s, _, hs, hs.conforms_fresh hnew _ _, hwalk⟩
      · cases hrun
    · cases hrun
  · cases hrun

end Schema

/-- The classes of a heap have been added one after the other. -/
theorem Reached.registered {c : Collector} (hr : Reached c) : c.schema.Registered := by
  induction hr with
  | start settings processors => exact .empty
  | step hr ha hok ih =>
    rcases Collector.perform_classes hr.sound ha hok with hsame | ⟨spec, id, -, hadded⟩
    · rw [hsame]
      exact ih
    · exact ih.register hadded

/-- Every object of a heap conforms to its class. -/
theorem Reached.conforms {c : Collector} (hr : Reached c) {h : Handle} {o : Object}
    (ho : c.table.get? h = some o) : c.schema.Conforms o :=
  hr.registered.layered.conforms_iff.mpr (hr.sound.settled.orderly.fits h o ho)

end TracingHeap

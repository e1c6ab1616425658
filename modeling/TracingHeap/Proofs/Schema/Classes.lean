import TracingHeap.Proofs.Outcome
import TracingHeap.Proofs.Schema.SteadyCollectors
import TracingHeap.Cluster.Basic

namespace TracingHeap

mutual

theorem Kind.checkedWidth_ok : (k : Kind) → ∀ n, k.checkedWidth = .ok n → n = k.width
  | .value, _, h | .reference _, _, h | .references _, _, h | .structs _ _, _, h
  | .container _, _, h => by cases h; rfl
  | .fixed element count, n, h => by
    simp only [Kind.checkedWidth] at h
    obtain ⟨w, hw, h⟩ := except_bind_ok h
    rw [mulSizes_ok h, element.checkedWidth_ok w hw, Kind.width]
  | .inline _ fields, n, h => by
    have := fields.checkedWidth_ok 0 n h
    rwa [Nat.zero_add] at this

theorem Fields.checkedWidth_ok : (fs : Fields) → ∀ before n, fs.checkedWidth before = .ok n →
    n = before + fs.width
  | .nil, before, n, h => by cases h; rfl
  | .cons _ kind rest, before, n, h => by
    simp only [Fields.checkedWidth] at h
    obtain ⟨w, hw, h⟩ := except_bind_ok h
    obtain ⟨next, hn, h⟩ := except_bind_ok h
    rw [rest.checkedWidth_ok next n h, addSizes_ok hn, kind.checkedWidth_ok w hw, Fields.width,
      Nat.add_assoc]

end

mutual

theorem Kind.checkedWidth_error : (k : Kind) → ∀ f, k.checkedWidth = .error f → f.IsOverflow
  | .value, _, h | .reference _, _, h | .references _, _, h | .structs _ _, _, h
  | .container _, _, h => by cases h
  | .fixed element count, f, h => by
    simp only [Kind.checkedWidth] at h
    rcases except_bind_error h with h | ⟨w, _, h⟩
    · exact element.checkedWidth_error f h
    · exact mulSizes_error h
  | .inline _ fields, f, h => fields.checkedWidth_error 0 f h

theorem Fields.checkedWidth_error : (fs : Fields) → ∀ before f,
    fs.checkedWidth before = .error f → f.IsOverflow
  | .nil, before, f, h => by cases h
  | .cons _ kind rest, before, f, h => by
    simp only [Fields.checkedWidth] at h
    rcases except_bind_error h with h | ⟨w, _, h⟩
    · exact kind.checkedWidth_error f h
    · rcases except_bind_error h with h | ⟨next, _, h⟩
      · exact addSizes_error h
      · exact rest.checkedWidth_error next f h

end

section

variable {className owner : String}

mutual

/-- The tokens of a field that has passed the check can be emitted, unless a number met on the way does
not fit. The two go by different names for the field. -/
theorem Kind.checkEmission_error : (k : Kind) → ∀ checked field offset f,
    k.check owner checked = .ok () → k.checkEmission className field offset = .error f → f.IsOverflow
  | .value, _, _, _, _, _, h | .reference _, _, _, _, _, _, h | .references _, _, _, _, _, _, h => by
    cases h
  | .container spec, checked, field, offset, f, hok, h => by
    simp only [Kind.check] at hok
    simp only [Kind.checkEmission] at h
    split at hok
    · cases hok
    · rename_i hhas
      rw [if_neg hhas] at h
      cases h
  | .fixed element count, checked, field, offset, f, hok, h => by
    simp only [Kind.checkEmission] at h
    split at h
    · cases h
    · split at h
      · exact element.checkEmission_error checked field offset f hok h
      · rcases except_bind_error h with h | ⟨w, _, h⟩
        · exact element.checkedWidth_error f h
        · exact element.checkEmission_error checked field 0 f hok h
  | .inline name fields, checked, field, offset, f, hok, h => by
    simp only [Kind.checkEmission] at h
    split at h
    · exact fields.checkEmission_error (name ++ ".") (field ++ ".") offset f hok h
    · cases h
  | .structs name fields, checked, field, offset, f, hok, h => by
    simp only [Kind.checkEmission] at h
    split at h
    · exact fields.checkEmission_error (name ++ ".") (field ++ ".") 0 f hok h
    · cases h

theorem Fields.checkEmission_error : (fs : Fields) → ∀ checked path offset f,
    fs.check owner checked = .ok () → fs.checkEmission className path offset = .error f →
      f.IsOverflow
  | .nil, _, _, _, _, _, h => by cases h
  | .cons name kind rest, checked, path, offset, f, hok, h => by
    simp only [Fields.check] at hok
    obtain ⟨⟨⟩, hkind, hrest⟩ := except_bind_ok hok
    simp only [Fields.checkEmission] at h
    rcases except_bind_error h with h | ⟨_, _, h⟩
    · exact kind.checkEmission_error (checked ++ name) (path ++ name) offset f hkind h
    · rcases except_bind_error h with h | ⟨w, _, h⟩
      · exact kind.checkedWidth_error f h
      · rcases except_bind_error h with h | ⟨next, _, h⟩
        · exact addSizes_error h
        · exact rest.checkEmission_error checked path next f hrest h

end

end

namespace TokenStream

def Renders (ts : TokenStream) (ps : List Part) : Prop :=
  ∃ es last, ts.entries = (es ++ [last]).toArray ∧ last.token = .stop ∧ Spells 0 es ps

variable {ts : TokenStream} {ps : List Part}

theorem Renders.inherited (h : ts.Renders ps) : Spells 0 (inherited (some ts)) ps := by
  obtain ⟨es, last, he, hlast, hes⟩ := h
  have hkeep : es.filter (fun e => !e.token.isStop) = es :=
    List.filter_eq_self.mpr fun e hm => by simp [hes.no_stop e hm]
  have hlist : TokenStream.inherited (some ts) = es := by
    simp only [TokenStream.inherited, he, List.filter_append, hkeep]
    simp [hlast, Token.isStop]
  rwa [hlist]

/-- What a subclass adds to the tokens it takes over. -/
theorem assemble_renders {className : String} {base : Nat} {fs : Fields}
    {own : Option ObjectCollector} {parent : Option TokenStream}
    (hp : Spells 0 (inherited parent) ps)
    (h : assemble className base fs own parent = .ok ts) :
    ts.Renders (Part.extend ps base fs own) := by
  unfold assemble at h
  obtain ⟨_, _, h⟩ := except_bind_ok h
  cases h
  have hbody := hp.append_fields className base fs
  rw [Nat.zero_add] at hbody
  refine ⟨_, _, rfl, rfl, ?_⟩
  cases own with
  | none => exact hbody
  | some f => exact hbody.withCollector className f

theorem assemble_error {className checked : String} {base : Nat} {fs : Fields}
    {own : Option ObjectCollector} {parent : Option TokenStream} {f : Fault}
    (hok : fs.check className checked = .ok ())
    (h : assemble className base fs own parent = .error f) : f.IsOverflow := by
  unfold assemble at h
  rcases except_bind_error h with h | ⟨_, _, h⟩
  · exact fs.checkEmission_error checked "" base f hok h
  · cases h

/-- Reading an object whose cells fit reports the slots of the parts, in order. -/
theorem Renders.walk (h : ts.Renders ps) {o : Object} (hfit : ∀ p ∈ ps, p.Fits o.cells) :
    (ts.walk o).fault = none ∧ (ts.walk o).visits.map Visit.found = ps.flatMap (Part.slots o) := by
  obtain ⟨es, last, he, hlast, hes⟩ := h
  have hts : ts.HasAt 0 (es ++ [last]) := by
    intro j e hj
    rw [he, Nat.zero_add]
    simpa using hj
  have hsize : ts.size = es.length + 1 := by simp [size, he]
  have hreads : (ts.walkRange o o.cells 0 0 ts.size).Reads _
      (ts.walkRange o o.cells 0 (0 + es.length) ts.size) := hes.walk hts.left hfit (by omega)
  have hend : ts.walkRange o o.cells 0 (0 + es.length) ts.size = .done := by
    rw [walkRange, hts.right.head, hlast]
    simp
  rw [hend] at hreads
  exact hreads.done

end TokenStream

namespace Schema

variable {s : Schema} {id : ClassId} {e : ClassEntry}

/-- The parts that a class reports, those of its superclasses first. -/
def outline (s : Schema) (id : ClassId) : List Part :=
  match s.get? id with
  | none => []
  | some c =>
    let inherited := match c.spec.superclass with
      | none => []
      | some p => if _ : p.index < id.index then s.outline p else []
    Part.extend inherited c.base c.spec.fields c.spec.collector
termination_by id.index

/-- A class has passed the check, and is laid out over its superclass, which was registered before it. -/
structure Built (s : Schema) (i : Nat) (e : ClassEntry) : Prop where
  checked : e.spec.fields.check e.spec.name "" = .ok ()
  laidOut : match e.spec.superclass with
    | none => layOut e.spec none = .ok e
    | some p => p.index < i ∧ ∃ q, s.get? p = some q ∧ layOut e.spec (some q) = .ok e

structure Layered (s : Schema) : Prop where
  built : ∀ id e, s.get? id = some e → s.Built id.index e

/-- Every class is laid out over its superclass and keeps to what is asked of it. -/
structure Regular (s : Schema) : Prop extends Layered s where
  honest : ∀ id e, s.get? id = some e → e.spec.Honest

def Fits (s : Schema) (o : Object) : Prop :=
  (∃ e, s.get? o.classId = some e ∧ o.cells.size = e.width) ∧
    ∀ p ∈ s.outline o.classId, p.Fits o.cells

theorem outline_root (h : s.get? id = some e) (hs : e.spec.superclass = none) :
    s.outline id = Part.extend [] e.base e.spec.fields e.spec.collector := by
  rw [outline, h]
  simp [hs]

theorem outline_child {p : ClassId} (h : s.get? id = some e) (hs : e.spec.superclass = some p)
    (hp : p.index < id.index) :
    s.outline id = Part.extend (s.outline p) e.base e.spec.fields e.spec.collector := by
  rw [outline, h]
  simp [hs, hp]

theorem layOut_ok {spec : ClassSpec} {parent : Option ClassEntry}
    (h : layOut spec parent = .ok e) :
    e.spec = spec ∧ e.base = (parent.map (·.width)).getD 0 ∧
      e.width = e.base + spec.fields.width ∧
      e.stream = (match parent with
        | some p => p.stream.bind fun ts =>
          TokenStream.assemble spec.name e.base spec.fields spec.collector (some ts)
        | none => TokenStream.assemble spec.name e.base spec.fields spec.collector none) := by
  unfold layOut at h
  obtain ⟨w, hw, h⟩ := except_bind_ok h
  obtain ⟨width, hwidth, h⟩ := except_bind_ok h
  have hw' := spec.fields.checkedWidth_ok 0 w hw
  have hwidth' := addSizes_ok hwidth
  rw [Nat.zero_add] at hw'
  cases h
  cases parent with
  | none => exact ⟨rfl, rfl, by simp [hwidth', hw'], rfl⟩
  | some p => exact ⟨rfl, rfl, by simp [hwidth', hw'], rfl⟩

theorem layOut_error {spec : ClassSpec} {parent : Option ClassEntry} {f : Fault}
    (h : layOut spec parent = .error f) : f.IsOverflow := by
  unfold layOut at h
  rcases except_bind_error h with h | ⟨w, -, h⟩
  · exact spec.fields.checkedWidth_error 0 f h
  rcases except_bind_error h with h | ⟨width, -, h⟩
  · exact addSizes_error h
  · cases h

/-- An induction along the superclasses of a class. -/
theorem Layered.induct (hs : s.Layered) {P : ClassId → ClassEntry → Prop}
    (root : ∀ id e, s.get? id = some e → e.spec.superclass = none →
      layOut e.spec none = .ok e → P id e)
    (child : ∀ id e p q, s.get? id = some e → e.spec.superclass = some p → p.index < id.index →
      s.get? p = some q → layOut e.spec (some q) = .ok e → P p q → P id e) :
    ∀ id e, s.get? id = some e → P id e := by
  intro id
  induction hn : id.index using Nat.strongRecOn generalizing id with
  | _ n ih =>
    intro e he
    have hb := (hs.built id e he).laidOut
    split at hb
    · rename_i hsup
      exact root id e he hsup hb
    · rename_i p hsup
      obtain ⟨hlt, q, hq, hl⟩ := hb
      exact child id e p q he hsup hlt hq hl (ih p.index (hn ▸ hlt) p rfl q hq)

/-- The stream of a class renders its outline. -/
theorem Layered.renders (hs : s.Layered) : ∀ id e, s.get? id = some e →
    ∀ ts, e.stream = .ok ts → ts.Renders (s.outline id) := by
  refine hs.induct ?_ ?_
  · intro id e he hsup hl ts hts
    rw [outline_root he hsup]
    rw [(layOut_ok hl).2.2.2] at hts
    have hnil : Spells 0 (TokenStream.inherited none) [] := .nil 0
    exact TokenStream.assemble_renders hnil hts
  · intro id e p q he hsup hlt hq hl ih ts hts
    rw [outline_child he hsup hlt]
    rw [(layOut_ok hl).2.2.2] at hts
    obtain ⟨us, hus, hts⟩ := except_bind_ok hts
    exact TokenStream.assemble_renders (ih us hus).inherited hts

/-- A class has a stream unless a number met in making it does not fit. -/
theorem Layered.stream_error (hs : s.Layered) : ∀ id e, s.get? id = some e →
    ∀ f, e.stream = .error f → f.IsOverflow := by
  refine hs.induct ?_ ?_
  · intro id e he hsup hl f hf
    rw [(layOut_ok hl).2.2.2] at hf
    exact TokenStream.assemble_error (hs.built id e he).checked hf
  · intro id e p q he hsup hlt hq hl ih f hf
    rw [(layOut_ok hl).2.2.2] at hf
    rcases except_bind_error hf with hf | ⟨us, _, hf⟩
    · exact ih f hf
    · exact TokenStream.assemble_error (hs.built id e he).checked hf

/-- Every part of a class keeps to what is asked of it. -/
theorem Regular.honest_parts (hs : s.Regular) : ∀ id e, s.get? id = some e →
    ∀ p ∈ s.outline id, p.Honest := by
  have own : ∀ id e, s.get? id = some e → ∀ inherited : List Part, (∀ p ∈ inherited, p.Honest) →
      ∀ p ∈ Part.extend inherited e.base e.spec.fields e.spec.collector, p.Honest := by
    intro id e he inherited hi p hp
    rcases Part.mem_extend hp with hp | rfl | ⟨f, hf, rfl⟩
    · exact hi p hp
    · exact (hs.honest id e he).fields
    · exact (hs.honest id e he).collector f hf
  refine hs.induct ?_ ?_
  · intro id e he hsup _
    rw [outline_root he hsup]
    exact own id e he [] (by simp)
  · intro id e p q he hsup hlt hq _ ih
    rw [outline_child he hsup hlt]
    exact own id e he _ ih

/-- An object that fits can be read, unless a number met in making the stream does not fit; what
is read are the slots of the outline. -/
theorem Layered.walk_cases (hs : s.Layered) {o : Object} (ho : s.Fits o) :
    (∃ w, s.walk o = .ok w ∧ w.fault = none ∧
        w.visits.map Visit.found = (s.outline o.classId).flatMap (Part.slots o)) ∨
      ∃ f : Fault, s.walk o = .error (.fault f) ∧ f.IsOverflow := by
  obtain ⟨⟨e, he, -⟩, hparts⟩ := ho
  cases hstream : e.stream with
  | ok ts =>
    refine .inl ⟨ts.walk o, ?_, (hs.renders _ e he ts hstream).walk hparts⟩
    simp [walk, stream, get, he, hstream, bind, Except.bind, pure, Except.pure]
  | error f =>
    refine .inr ⟨f, ?_, hs.stream_error _ e he f hstream⟩
    simp [walk, stream, get, he, hstream, bind, Except.bind]

end Schema

end TracingHeap

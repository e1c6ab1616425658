import Std.Data.HashMap
import Mathlib.Logic.Relation
import Mathlib.Order.Defs.Unbundled
import TracingHeap.Proofs.Schema.Lineage

namespace TracingHeap

namespace Schema

variable {s : Schema} {id a b : ClassId} {e : ClassEntry}

def superclass? (s : Schema) (id : ClassId) : Option ClassId :=
  (s.get? id).bind (·.spec.superclass)

def Extends (s : Schema) (a b : ClassId) : Prop := s.superclass? a = some b

theorem extends_iff : s.Extends a b ↔ ∃ e, s.get? a = some e ∧ e.spec.superclass = some b := by
  simp [Extends, superclass?, Option.bind_eq_some_iff]

/-- A class and its superclasses, the nearest first, up to the one that declares none. -/
inductive Chain (s : Schema) : ClassId → List ClassEntry → Prop where
  | root {id : ClassId} {e : ClassEntry} (h : s.get? id = some e)
      (top : e.spec.superclass = none) : Chain s id [e]
  | up {id p : ClassId} {e : ClassEntry} {above : List ClassEntry} (h : s.get? id = some e)
      (super : e.spec.superclass = some p) (rest : Chain s p above) : Chain s id (e :: above)

/-- A superclass was registered before. -/
theorem Layered.extends_lt (hs : s.Layered) (h : s.Extends a b) :
    b.index < a.index ∧ (s.get? b).isSome := by
  obtain ⟨e, he, hsup⟩ := extends_iff.mp h
  have hb := (hs.built a e he).laidOut
  simp only [hsup] at hb
  obtain ⟨hlt, q, hq, -⟩ := hb
  exact ⟨hlt, by rw [hq]; rfl⟩

/-- Climbing comes to an end, from whichever class. -/
theorem Layered.wellFounded (hs : s.Layered) : WellFounded fun b a => s.Extends a b :=
  Subrelation.wf (fun h => (hs.extends_lt h).1) (measure ClassId.index).wf

theorem Layered.chain (hs : s.Layered) : ∀ id e, s.get? id = some e → ∃ line, s.Chain id line := by
  refine hs.induct ?_ ?_
  · exact fun id e he hsup _ => ⟨[e], .root he hsup⟩
  · intro id e p q he hsup _ _ _ ih
    obtain ⟨line, hline⟩ := ih
    exact ⟨e :: line, .up he hsup hline⟩

theorem Layered.ancestry_eq (hs : s.Layered) (id : ClassId) :
    s.ancestry id = id :: ((s.superclass? id).map s.ancestry).getD [] := by
  rw [ancestry]
  unfold superclass?
  cases he : s.get? id with
  | none => rfl
  | some e =>
    cases hsup : e.spec.superclass with
    | none => simp [hsup]
    | some p =>
      have hlt := (hs.extends_lt (extends_iff.mpr ⟨e, he, hsup⟩)).1
      simp [hsup, hlt]

/-- The loop that looks for an ancestor. -/
theorem Layered.isChildOf_eq (hs : s.Layered) (id a : ClassId) :
    s.isChildOf id a = (a == id || (s.superclass? id).any (s.isChildOf · a)) := by
  unfold isChildOf
  rw [hs.ancestry_eq, List.contains_cons]
  cases s.superclass? id <;> rfl

/-- A class is a child of those that it comes to by climbing. -/
theorem Layered.isChildOf_iff (hs : s.Layered) :
    s.isChildOf a b = true ↔ Relation.ReflTransGen s.Extends a b := by
  induction a using hs.wellFounded.induction with
  | _ a ih =>
    rw [hs.isChildOf_eq, Relation.ReflTransGen.cases_head_iff]
    simp only [Bool.or_eq_true, beq_iff_eq, Option.any_eq_true]
    refine or_congr eq_comm (exists_congr fun p => ?_)
    exact and_congr_right fun hp => ih p hp

theorem Layered.le_of_isChildOf (hs : s.Layered) (h : s.isChildOf a b = true) :
    b.index ≤ a.index := by
  rw [hs.isChildOf_iff] at h
  induction h with
  | refl => exact Nat.le_refl _
  | tail _ hext ih => exact Nat.le_trans (Nat.le_of_lt (hs.extends_lt hext).1) ih

/-- The classes are partially ordered. -/
theorem Layered.partialOrder (hs : s.Layered) :
    IsPartialOrder ClassId fun a b => s.isChildOf a b = true where
  refl a := hs.isChildOf_iff.mpr .refl
  trans a b c h h' := hs.isChildOf_iff.mpr ((hs.isChildOf_iff.mp h).trans (hs.isChildOf_iff.mp h'))
  antisymm a b h h' := by
    have hidx := Nat.le_antisymm (hs.le_of_isChildOf h') (hs.le_of_isChildOf h)
    cases a
    cases b
    exact congrArg ClassId.mk hidx

def streamAbove (s : Schema) (spec : ClassSpec) : Except Failure (Option TokenStream) :=
  match spec.superclass with
  | none => .ok none
  | some p => (s.stream p).map some

/-- The stream of a class is made from that of its superclass, which is asked for first. -/
theorem Layered.stream_eq (hs : s.Layered) (he : s.get? id = some e) :
    s.stream id = s.streamAbove e.spec >>= fun above =>
      (TokenStream.assemble e.spec.name e.base e.spec.fields e.spec.collector above).mapError
        .fault := by
  have hb := (hs.built id e he).laidOut
  have hown : s.stream id = e.stream.mapError .fault := by
    rw [stream, get, he]
    rfl
  rw [hown]
  cases hsup : e.spec.superclass with
  | none =>
    simp only [hsup] at hb
    rw [(layOut_ok hb).2.2.2, streamAbove, hsup]
    rfl
  | some p =>
    simp only [hsup] at hb
    obtain ⟨-, q, hq, hl⟩ := hb
    have habove : s.streamAbove e.spec = (q.stream.mapError .fault).map some := by
      rw [streamAbove, hsup]
      simp only [stream, get, hq]
      rfl
    have hstream : e.stream = q.stream.bind fun ts => TokenStream.assemble e.spec.name e.base
        e.spec.fields e.spec.collector (some ts) := (layOut_ok hl).2.2.2
    rw [hstream, habove]
    cases q.stream <;> rfl

theorem Layered.newCells_eq_append (hs : s.Layered) (he : s.get? id = some e) :
    s.newCells id = (e.spec.superclass.map s.newCells).getD [] ++ e.spec.fields.cells := by
  cases hsup : e.spec.superclass with
  | none => exact newCells_root he hsup
  | some p => exact newCells_child he hsup (hs.extends_lt (extends_iff.mpr ⟨e, he, hsup⟩)).1

theorem layOut_lifecycle {spec : ClassSpec} {parent : Option ClassEntry}
    (h : layOut spec parent = .ok e) :
    e.lifecycle = (parent.map fun p => spec.lifecycle.inherit p.lifecycle).getD spec.lifecycle := by
  unfold layOut at h
  obtain ⟨_, -, h⟩ := except_bind_ok h
  obtain ⟨_, -, h⟩ := except_bind_ok h
  cases h
  cases parent <;> rfl

/-- A hook that subclasses inherit is the one that the nearest class declares. -/
theorem Layered.hook_eq (hs : s.Layered) {β : Type} (hook : Lifecycle → Option β)
    (inherits : ∀ own parent : Lifecycle, hook (own.inherit parent) = (hook own).or (hook parent))
    {line : List ClassEntry} (h : s.Chain id line) :
    hook (s.lifecycle id) = line.findSome? fun c => hook c.spec.lifecycle := by
  induction h with
  | @root id e he top =>
    have hb := (hs.built id e he).laidOut
    simp only [top] at hb
    simp [lifecycle, he, layOut_lifecycle hb]
  | @up id p e above he super rest ih =>
    have hb := (hs.built id e he).laidOut
    simp only [super] at hb
    obtain ⟨-, q, hq, hl⟩ := hb
    rw [List.findSome?_cons, ← ih]
    simp only [lifecycle, he, hq, layOut_lifecycle hl, Option.map_some, Option.getD_some, inherits]
    cases hook e.spec.lifecycle <;> rfl

def NamesDistinct (s : Schema) : Prop := ∀ a b d e, s.get? a = some d → s.get? b = some e →
  d.spec.name = e.spec.name → a = b

theorem find?_eq_none_iff {name : String} :
    s.find? name = none ↔ ∀ id e, s.get? id = some e → e.spec.name ≠ name := by
  simp only [find?, Option.map_eq_none_iff, Array.findIdx?_eq_none_iff, beq_eq_false_iff_ne]
  constructor
  · exact fun h id e he => h e (Array.mem_of_getElem? he)
  · intro h e he
    obtain ⟨i, hi⟩ := Array.getElem?_of_mem he
    exact h ⟨i⟩ e hi

/-- A name is found just when a class bears it. -/
theorem NamesDistinct.find?_eq_some_iff (hs : s.NamesDistinct) {name : String} :
    s.find? name = some id ↔ ∃ e, s.get? id = some e ∧ e.spec.name = name := by
  have hfound : ∀ id, s.find? name = some id → ∃ e, s.get? id = some e ∧ e.spec.name = name := by
    intro id h
    obtain ⟨i, hi, rfl⟩ := Option.map_eq_some_iff.mp h
    obtain ⟨hlt, hname, -⟩ := Array.findIdx?_eq_some_iff_getElem.mp hi
    exact ⟨s.classes[i], Array.getElem?_eq_getElem hlt, beq_iff_eq.mp hname⟩
  refine ⟨hfound id, fun ⟨e, he, hname⟩ => ?_⟩
  cases hx : s.find? name with
  | none => exact absurd hname (find?_eq_none_iff.mp hx id e he)
  | some id' =>
    obtain ⟨e', he', hname'⟩ := hfound id' hx
    exact congrArg some (hs id' id e' e he' he (hname'.trans hname.symm))

theorem find?_push (e : ClassEntry) (name : String) :
    (Schema.mk (s.classes.push e)).find? name =
      (s.find? name).or (if e.spec.name = name then some ⟨s.size⟩ else none) := by
  simp only [find?, Array.findIdx?_push, beq_iff_eq, size]
  cases s.classes.findIdx? fun c => c.spec.name == name with
  | some i => rfl
  | none => split <;> rfl

/-- A class that is accepted has a name of its own, and the next id. -/
theorem register_new {spec : ClassSpec} {s' : Schema} (h : s.register spec = .ok (id, s')) :
    s.find? spec.name = none ∧ id = ⟨s.size⟩ := by
  unfold register at h
  split at h
  · cases h
  · rename_i hfound
    obtain ⟨_, -, h⟩ := except_bind_ok h
    obtain ⟨_, -, h⟩ := except_bind_ok h
    obtain ⟨next, hnext, h⟩ := except_bind_ok h
    obtain ⟨_, -, h⟩ := except_bind_ok h
    cases h
    refine ⟨Option.not_isSome_iff_eq_none.mp hfound, ?_⟩
    have hnext := except_mapError_ok hnext
    unfold nextId at hnext
    split at hnext
    · cases hnext
      rfl
    · cases hnext

theorem NamesDistinct.push (hs : s.NamesDistinct) {e : ClassEntry}
    (hnew : s.find? e.spec.name = none) : (Schema.mk (s.classes.push e)).NamesDistinct := by
  have hnone := find?_eq_none_iff.mp hnew
  intro a b d d' hd hd' hname
  rcases get?_of_push hd with hold | ⟨ha, hlast⟩
  · rcases get?_of_push hd' with hold' | ⟨-, hlast'⟩
    · exact hs a b d d' hold hold' hname
    · exact absurd (hlast' ▸ hname) (hnone a d hold)
  · rcases get?_of_push hd' with hold' | ⟨hb, -⟩
    · exact absurd (hlast ▸ hname).symm (hnone b d' hold')
    · cases a
      cases b
      exact congrArg ClassId.mk (ha.trans hb.symm)

end Schema

/-- The classes, and an index of their ids by name. -/
structure ClassRegistry where
  schema : Schema
  names : Std.HashMap String ClassId

namespace ClassRegistry

def empty : ClassRegistry := ⟨.empty, ∅⟩

def find? (r : ClassRegistry) (name : String) : Option ClassId := r.names[name]?

/-- A call that registers a class, as a program on the registry: where it breaks off, the registry stays
as it is then. It enters the name and the class when nothing can fail any more. -/
def register (spec : ClassSpec) : ExceptT Failure (StateM ClassRegistry) ClassId := do
  let r ← get
  if (r.find? spec.name).isSome then
    throw (.error (.duplicateClass spec.name))
  ofExcept ((spec.fields.check spec.name "").mapError Failure.error)
  let parent ← ofExcept ((r.schema.parent spec).mapError Failure.error)
  let id ← ofExcept (r.schema.nextId.mapError Failure.error)
  let entry ← ofExcept ((Schema.layOut spec parent).mapError Failure.fault)
  modify fun r => { r with names := r.names.insert spec.name id }
  modify fun r => { r with schema := ⟨r.schema.classes.push entry⟩ }
  return id

/-- The answer to a call, and the registry that it leaves. -/
def call (spec : ClassSpec) (r : ClassRegistry) : Except Failure ClassId × ClassRegistry :=
  (register spec).run.run r

def calls : List ClassSpec → ClassRegistry → List (Except Failure ClassId) × ClassRegistry
  | [], r => ([], r)
  | spec :: rest, r =>
    let (answer, r) := call spec r
    let (answers, r) := calls rest r
    (answer :: answers, r)

theorem run_ofExcept_bind {α β : Type} (x : Except Failure α)
    (f : α → ExceptT Failure (StateM ClassRegistry) β) (r : ClassRegistry) :
    (ofExcept x >>= f).run.run r = match x with
      | .ok a => (f a).run.run r
      | .error e => (.error e, r) := by
  cases x <;> rfl

/-- A call answers as registering does, and what it leaves is what registering gives, or all as it was. -/
theorem call_eq (spec : ClassSpec) (r : ClassRegistry)
    (hnames : ∀ name, r.find? name = r.schema.find? name) :
    call spec r = match r.schema.register spec with
      | .ok (id, s) => (.ok id, ⟨s, r.names.insert spec.name id⟩)
      | .error f => (.error f, r) := by
  unfold call register Schema.register
  rw [← hnames]
  change (if (r.find? spec.name).isSome then _ else _ : StateM ClassRegistry _) r = _
  by_cases hfound : (r.find? spec.name).isSome = true
  · rw [if_pos hfound, if_pos hfound]
    rfl
  · rw [if_neg hfound, if_neg hfound]
    cases (spec.fields.check spec.name "").mapError Failure.error with
    | error f => rfl
    | ok _ =>
      cases (r.schema.parent spec).mapError Failure.error with
      | error f => rfl
      | ok parent =>
        cases r.schema.nextId.mapError Failure.error with
        | error f => rfl
        | ok id =>
          change (ofExcept ((Schema.layOut spec parent).mapError Failure.fault) >>= _ :
            ExceptT Failure (StateM ClassRegistry) ClassId).run.run r = _
          rw [run_ofExcept_bind]
          change _ = match ((Schema.layOut spec parent).mapError Failure.fault >>= fun entry =>
              .ok (id, ⟨r.schema.classes.push entry⟩) : Except Failure (ClassId × Schema)) with
            | .ok (id, s) => _
            | .error f => _
          cases (Schema.layOut spec parent).mapError Failure.fault with
          | error f => rfl
          | ok entry => rfl

def entered (r : ClassRegistry) : List (ClassId × ClassSpec) :=
  r.schema.classes.toList.zipIdx.map fun p => (⟨p.2⟩, p.1.spec)

def accepted (specs : List ClassSpec) (answers : List (Except Failure ClassId)) :
    List (ClassId × ClassSpec) :=
  (specs.zip answers).filterMap fun p => p.2.toOption.map (·, p.1)

theorem accepted_cons (spec : ClassSpec) (answer : Except Failure ClassId) (rest : List ClassSpec)
    (answers : List (Except Failure ClassId)) : accepted (spec :: rest) (answer :: answers) =
      (answer.toOption.map (·, spec)).toList ++ accepted rest answers := by
  cases answer <;> rfl

structure Kept (r : ClassRegistry) : Prop where
  registered : r.schema.Registered
  distinct : r.schema.NamesDistinct
  index : ∀ name, r.find? name = r.schema.find? name

theorem Kept.empty : Kept .empty := by
  refine ⟨.empty, fun a b d e hd => ?_, fun name => ?_⟩
  · simp [ClassRegistry.empty, Schema.empty, Schema.get?] at hd
  · simp [ClassRegistry.empty, find?, Schema.empty, Schema.find?]

/-- A call keeps what it finds kept, and enters the class just when it is accepted. -/
theorem Kept.step {r : ClassRegistry} (hr : r.Kept) (spec : ClassSpec) :
    (call spec r).2.Kept ∧ (call spec r).2.entered =
      r.entered ++ ((call spec r).1.toOption.map (·, spec)).toList := by
  rw [call_eq spec r hr.index]
  cases hreg : r.schema.register spec with
  | error f => exact ⟨hr, (List.append_nil _).symm⟩
  | ok found =>
    obtain ⟨id, s⟩ := found
    obtain ⟨hnew, rfl⟩ := Schema.register_new hreg
    obtain ⟨e, rfl, rfl, -⟩ := Schema.register_ok hreg
    refine ⟨⟨hr.registered.register hreg, hr.distinct.push hnew, fun name => ?_⟩, ?_⟩
    · rw [Schema.find?_push, ← hr.index]
      simp only [find?, Std.HashMap.getElem?_insert, beq_iff_eq]
      split
      · rename_i hname
        have hindex := hr.index e.spec.name
        rw [hnew, hname] at hindex
        rw [show r.names[name]? = none from hindex]
        rfl
      · rw [Option.or_none]
    · simp [entered, Except.toOption, List.zipIdx_append, Schema.size]

theorem Kept.run (specs : List ClassSpec) : ∀ {r : ClassRegistry}, r.Kept →
    (calls specs r).2.Kept ∧ (calls specs r).1.length = specs.length ∧
      (calls specs r).2.entered = r.entered ++ accepted specs (calls specs r).1 := by
  induction specs with
  | nil => exact fun hr => ⟨hr, rfl, (List.append_nil _).symm⟩
  | cons spec rest ih =>
    intro r hr
    obtain ⟨hkept, hentered⟩ := hr.step spec
    obtain ⟨hlast, hlength, hall⟩ := ih hkept
    refine ⟨hlast, congrArg (· + 1) hlength, hall.trans ?_⟩
    rw [hentered, List.append_assoc]
    exact congrArg (r.entered ++ ·) (accepted_cons spec _ rest _).symm

/-- The registry after calls for these descriptions, with these answers. -/
structure Sound (specs : List ClassSpec) (answers : List (Except Failure ClassId))
    (r : ClassRegistry) : Prop where
  answered : answers.length = specs.length
  /-- The ids given count the classes accepted, from nought. -/
  entered : accepted specs answers = r.entered
  distinct : r.schema.NamesDistinct
  found : ∀ name id, r.find? name = some id ↔
    ∃ e, r.schema.get? id = some e ∧ e.spec.name = name
  below : ∀ a b, r.schema.Extends a b → b.index < a.index ∧ (r.schema.get? b).isSome
  /-- The three loops below call themselves for a superclass only, so they come to an end. -/
  climbs : WellFounded fun b a => r.schema.Extends a b
  childOf : ∀ a b, r.schema.isChildOf a b =
    (b == a || (r.schema.superclass? a).any (r.schema.isChildOf · b))
  stream : ∀ id e, r.schema.get? id = some e → r.schema.stream id =
    r.schema.streamAbove e.spec >>= fun above => (TokenStream.assemble e.spec.name e.base
      e.spec.fields e.spec.collector above).mapError .fault
  cells : ∀ id e, r.schema.get? id = some e →
    r.schema.instantiate id = ((reserve e.width Schema.cellBytes).mapError .fault >>= fun _ =>
        .ok (r.schema.newCells id).toArray) ∧
      r.schema.newCells id =
        (e.spec.superclass.map r.schema.newCells).getD [] ++ e.spec.fields.cells
  unknown : ∀ id, r.schema.get? id = none →
    r.schema.stream id = .error (.error (.unknownClass id)) ∧
      r.schema.instantiate id = .error (.error (.unknownClass id))
  closure : ∀ a b, r.schema.isChildOf a b = true ↔ Relation.ReflTransGen r.schema.Extends a b
  order : IsPartialOrder ClassId fun a b => r.schema.isChildOf a b = true
  /-- The hook in force is the one that the nearest class declares. -/
  hooks : ∀ id e, r.schema.get? id = some e → ∃ line, r.schema.Chain id line ∧
    (r.schema.lifecycle id).beginWord = line.findSome? (·.spec.lifecycle.beginWord) ∧
    (r.schema.lifecycle id).readiness = line.findSome? (·.spec.lifecycle.readiness) ∧
    (r.schema.lifecycle id).finishWord = line.findSome? (·.spec.lifecycle.finishWord)
  accepts : ∀ spec id s, r.schema.register spec = .ok (id, s) →
    (call spec r).1 = .ok id ∧ (call spec r).2.schema = s
  refuses : ∀ spec f, (call spec r).1 = .error f →
    r.schema.register spec = .error f ∧ (call spec r).2 = r ∧ ∀ g, f = .fault g → g.IsOverflow

/-- Whatever is asked to be registered, the registry is sound. -/
theorem calls_sound (specs : List ClassSpec) :
    Sound specs (calls specs .empty).1 (calls specs .empty).2 := by
  obtain ⟨hr, hlength, hentered⟩ := Kept.empty.run specs
  have hs := hr.registered.layered
  refine ⟨hlength, hentered.symm, hr.distinct, fun name id => ?_, fun a b => hs.extends_lt,
    hs.wellFounded, hs.isChildOf_eq, fun id e => hs.stream_eq,
    fun id e he => ⟨?_, hs.newCells_eq_append he⟩, fun id hnone => ⟨?_, ?_⟩,
    fun a b => hs.isChildOf_iff, hs.partialOrder, fun id e he => ?_, fun spec id s hreg => ?_,
    fun spec f hf => ?_⟩
  · rw [hr.index, hr.distinct.find?_eq_some_iff]
  · rw [Schema.instantiate, Schema.get, he]
    rfl
  · rw [Schema.stream, Schema.get, hnone]
    rfl
  · rw [Schema.instantiate, Schema.get, hnone]
    rfl
  · obtain ⟨line, hline⟩ := hs.chain id e he
    exact ⟨line, hline, hs.hook_eq Lifecycle.beginWord (fun _ _ => rfl) hline,
      hs.hook_eq Lifecycle.readiness (fun _ _ => rfl) hline,
      hs.hook_eq Lifecycle.finishWord (fun _ _ => rfl) hline⟩
  · rw [call_eq spec _ hr.index, hreg]
    exact ⟨rfl, rfl⟩
  · rw [call_eq spec _ hr.index] at hf ⊢
    cases hreg : (calls specs .empty).2.schema.register spec with
    | ok found =>
      rw [hreg] at hf
      cases hf
    | error g =>
      rw [hreg] at hf
      cases hf
      exact ⟨rfl, rfl, fun g hg => Schema.register_fault (hreg.trans (congrArg Except.error hg))⟩

end ClassRegistry

end TracingHeap
